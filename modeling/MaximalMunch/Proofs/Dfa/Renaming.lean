import Mathlib.Data.List.Sort
import MaximalMunch.Dfa.Scanning
import MaximalMunch.Proofs.Dfa.Subsets
import MaximalMunch.Proofs.Nfa.Ids
import MaximalMunch.Proofs.Nfa.Renaming

/-!
# Subset construction and other owners

Which sets of states are reached, and along which spans, depends on the size and the transitions of
a graph alone. So a graph with the same ids and other owners leads to the same states with other
candidates (`Nfa.Graph.Renamed.determinize_eq`). If the names of the tokens follow, the automaton
reports the same names (`Dfa.automaton_rename`).
-/

namespace MaximalMunch

/-- The automaton whose states have the candidates renamed by `f`, with other names of tokens. -/
def Dfa.rename (d : Dfa) (f : Nat → Nat) (names : Array String) : Dfa :=
  ⟨d.states.map fun s => { s with candidates := s.candidates.map f }, names⟩

namespace Nfa.Graph

variable {g h : Graph}

/-! ## What the transitions determine -/

section Transitions

variable (htrans : ∀ i, h.transitions i = g.transitions i)

include htrans

/-- Spreading along empty transitions does not look at owners. -/
theorem spread_congr (fuel : Nat) : ∀ (marked : Array Bool) (stack : List Nat),
    h.spread fuel marked stack = g.spread fuel marked stack := by
  induction fuel with
  | zero => intro marked stack; rfl
  | succ fuel ih =>
    intro marked stack
    cases stack with
    | nil => rfl
    | cons i stack =>
      have htargets : h.epsilonTargets i = g.epsilonTargets i := by
        rw [epsilonTargets, htrans, epsilonTargets]
      rw [spread, spread, htargets]
      exact ih _ _

variable (hsize : h.size = g.size)

include hsize

/-- Closures do not depend on owners. -/
theorem closure_congr (seeds : List Nat) : h.closure seeds = g.closure seeds := by
  simp only [closure, hsize, spread_congr htrans]

/-- The arcs of a subset do not depend on owners. -/
theorem arcs_congr (subset : List Nat) : h.arcs subset = g.arcs subset := by
  have hmoves : h.moves subset = g.moves subset := by
    rw [moves, funext htrans, moves]
  simp only [arcs, hmoves, closure_congr htrans hsize]

/-- So the search finds the same subsets, in the same order. -/
theorem explore_congr (fuel : Nat) : ∀ (found : Array (List Nat)) (rows : Array (List Dfa.Edge)),
    h.explore fuel found rows = g.explore fuel found rows := by
  induction fuel with
  | zero => intro found rows; rfl
  | succ fuel ih =>
    intro found rows
    simp only [explore, arcs_congr htrans hsize, ih]

end Transitions

/-! ## Ids and candidates -/

/-- The ids of a subset are those of its states. -/
theorem idsOf_congr (hids : h.ids = g.ids) (subset : List Nat) :
    h.idsOf subset = g.idsOf subset := by
  have hid : ∀ i : Nat, h.states[i]?.map State.id = g.states[i]?.map State.id := by
    intro i
    rw [← getElem?_ids, hids, getElem?_ids]
  rw [idsOf, idsOf, funext hid]

namespace Renamed

variable {f : Nat → Nat}

/-- A set has the renamed owners as candidates: both lists increase and have the same members. -/
theorem candidatesOf_eq (hf : StrictMono f) (G : Renamed f g h) (subset : List Nat) :
    h.candidatesOf subset = (g.candidatesOf subset).map f := by
  have hmap : ((g.candidatesOf subset).map f).Pairwise (· < ·) :=
    List.pairwise_map.2 (pairwise_candidatesOf.imp fun hlt => hf hlt)
  refine pairwise_candidatesOf.eq_of_mem_iff hmap fun t => ?_
  rw [mem_candidatesOf, List.mem_map]
  constructor
  · rintro ⟨i, hi, owners', hmarks, ht⟩
    rw [G.marks_eq] at hmarks
    obtain ⟨⟨accepting, owners⟩, hm, heq⟩ := Option.map_eq_some_iff.1 hmarks
    obtain ⟨rfl, rfl⟩ := Prod.mk.inj heq
    obtain ⟨o, ho, rfl⟩ := List.mem_map.1 ht
    exact ⟨o, mem_candidatesOf.2 ⟨i, hi, owners, hm, ho⟩, rfl⟩
  · rintro ⟨o, ho, rfl⟩
    obtain ⟨i, hi, owners, hm, ho⟩ := mem_candidatesOf.1 ho
    exact ⟨i, hi, owners.map f, by rw [G.marks_eq, hm]; rfl, List.mem_map_of_mem ho⟩

/-- Subset construction gives the same states with the renamed candidates. -/
theorem determinize_eq (hf : StrictMono f) (G : Renamed f g h) (hids : h.ids = g.ids)
    (names names' : Array String) :
    h.determinize names' = (g.determinize names).rename f names' := by
  rw [determinize, determinize, G.isEmpty_eq, G.size_eq, explore_congr G.transitions_eq G.size_eq,
    closure_congr G.transitions_eq G.size_eq]
  simp only [idsOf_congr hids, G.candidatesOf_eq hf]
  split
  · simp [Dfa.rename]
  · refine congrArg (Dfa.mk · names') (Array.ext_getElem? fun i => ?_)
    rw [Array.getElem?_mapIdx, Array.getElem?_map, Array.getElem?_mapIdx, Option.map_map]
    rfl

end Renamed

end Nfa.Graph

namespace Dfa

variable {d : Dfa} {f : Nat → Nat} {names : Array String}

/-- A renamed automaton differs in the candidates of its states. -/
theorem getElem?_states_rename (q : Nat) : (d.rename f names).states[q]? =
    d.states[q]?.map fun s => { s with candidates := s.candidates.map f } :=
  Array.getElem?_map

/-- With the names in the places of the renamed candidates the same names are reported. -/
theorem automaton_rename (hnames : ∀ i, names[f i]? = d.tokenNames[i]?) :
    (d.rename f names).automaton = d.automaton := by
  have hnext : (d.rename f names).step = d.step := by
    funext q c
    show (Dfa.next _ _ _) = Dfa.next _ _ _
    rw [Dfa.next, getElem?_states_rename, Dfa.next]
    cases d.states[q]? <;> rfl
  have htoken : (d.rename f names).accepting = d.accepting := by
    funext q
    rw [accepting, getElem?_states_rename, accepting]
    cases d.states[q]? with
    | none => rfl
    | some s =>
      show ((s.candidates.map f).head?.bind fun i => names[i]?) =
        s.candidates.head?.bind fun i => d.tokenNames[i]?
      rw [List.head?_map, Option.bind_map]
      exact congrArg _ (funext hnames)
  rw [automaton, hnext, htoken]
  rfl

/-- What a text is reported as depends on the automaton alone. -/
theorem accepts_eq_automaton (d : Dfa) (text : String) : d.accepts text =
    (text.toList.foldlM d.automaton.next d.automaton.start).bind d.automaton.tokenOf :=
  rfl

end Dfa

end MaximalMunch
