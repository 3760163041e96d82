import MaximalMunch.Proofs.Dfa.Subsets

/-!
# No dead states

The sets of states that the subset construction finds are never empty (`Reached.ne_nil`). So the
deterministic automaton of a graph has a state after some code points if a path of the graph
consumes them (`isSome_follow_iff`), and if every state of the graph is on a way to an accepting
one, every state of the automaton is too (`exists_follow_accepting`).
-/

namespace MaximalMunch.Nfa.Graph

variable {g : Graph} {names : Array String}

/-- A closure has the seeds that are states. -/
theorem closure_ne_nil {seeds : List Nat} {s : Nat} (hs : s ∈ seeds) (hlt : s < g.size) :
    g.closure seeds ≠ [] :=
  List.ne_nil_of_mem (mem_closure.2 ⟨hlt, s, hs, .nil s⟩)

/-- A set that the construction finds has a member. -/
theorem Reached.ne_nil (hg : 0 < g.size) (hrange : g.InRange) {subset : List Nat}
    (h : g.Reached subset) : subset ≠ [] := by
  rcases h with rfl | ⟨prior, cp, hne, rfl⟩
  · exact closure_ne_nil (List.mem_singleton.2 rfl) hg
  · obtain ⟨j, hj⟩ := List.exists_mem_of_ne_nil _ hne
    obtain ⟨i, -, members, e, -⟩ := mem_targets.1 hj
    exact closure_ne_nil hj (hrange e)

/-- There is a state after some code points if a path consumes them. -/
theorem isSome_follow_iff (hg : 0 < g.size) (hrange : g.InRange) {u : List UInt32} :
    ((g.determinize names).follow 0 u).isSome = true ↔ ∃ i < g.size, g.Path 0 u i := by
  constructor
  · intro hsome
    obtain ⟨q, hq⟩ := Option.isSome_iff_exists.1 hsome
    obtain ⟨sets, D⟩ := exists_determinized hg names
    obtain ⟨subset, hsubset, hmem⟩ := (D.follow u D.start).1 q hq
    have hne := (D.reached subset (Array.mem_of_getElem? hsubset)).ne_nil hg hrange
    obtain ⟨i, hi⟩ := List.exists_mem_of_ne_nil _ hne
    obtain ⟨hlt, hpath⟩ := (hmem i).1 hi
    exact ⟨i, hlt, (exists_path_closure_iff hlt).1 hpath⟩
  · rintro ⟨i, hi, p⟩
    rw [Option.isSome_iff_ne_none]
    intro hnone
    exact not_path_of_follow hg hnone hi p

/-- If all states of a graph are on a way to one that accepts for some token, then some word leads
from any state of the automaton to one with a candidate. -/
theorem exists_follow_accepting (hg : 0 < g.size) (hrange : g.InRange)
    (hlive : ∀ i < g.size, ∃ w k owners, g.Path i w k ∧ g.marks k = some (true, owners) ∧
      owners ≠ [])
    {q : Nat} (hq : q < (g.determinize names).size) :
    ∃ w q' s, (g.determinize names).follow q w = some q' ∧
      (g.determinize names).states[q']? = some s ∧ s.candidates ≠ [] := by
  obtain ⟨sets, D⟩ := exists_determinized hg names
  have hsubset := Array.getElem?_eq_getElem (D.size_eq ▸ hq : q < sets.size)
  -- a member of the set of `q` is on a way to an accepting state
  have hne := (D.reached _ (Array.mem_of_getElem? hsubset)).ne_nil hg hrange
  obtain ⟨i, hi⟩ := List.exists_mem_of_ne_nil _ hne
  obtain ⟨w, k, owners, p, hmarks, howners⟩ := hlive i (D.lt_size_of_mem hsubset hi)
  have hk := lt_size_of_marks hmarks
  obtain ⟨hsome, hnone⟩ := D.follow w hsubset
  -- so the word of that way is followed from `q`, to a state that has the token as a candidate
  cases hfollow : (g.determinize names).follow q w with
  | none => exact absurd p (hnone hfollow k hk i hi)
  | some q' =>
    obtain ⟨subset', hsubset', hmem⟩ := hsome q' hfollow
    obtain ⟨s, hs, -, hcandidates, -⟩ := D.state q' subset' hsubset'
    obtain ⟨t, ht⟩ := List.exists_mem_of_ne_nil _ howners
    refine ⟨w, q', s, hfollow, hs, List.ne_nil_of_mem (a := t) ?_⟩
    rw [hcandidates, mem_candidatesOf]
    exact ⟨k, (hmem k).2 ⟨hk, i, hi, p⟩, owners, hmarks, ht⟩

end MaximalMunch.Nfa.Graph
