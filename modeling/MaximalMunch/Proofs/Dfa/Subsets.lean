import Mathlib.Data.List.Forall2
import Mathlib.Data.List.Sublists
import MaximalMunch.Dfa.Subsets
import MaximalMunch.Proofs.CharClass.Tagged
import MaximalMunch.Proofs.Nfa.Closure

/-!
# Subset construction

The arcs of a set of states lead each code point to the closure of its targets (`maps_arcs`). The
exploration numbers the sets that it finds and keeps the invariant `Explored`; as there are at most
`2 ^ n` closed sets of `n` states, it ends with a row of edges for each of them
(`explored_explore`).

`Determinized` says what comes out: each state of the deterministic automaton stands for a set. The
main statement is `Determinized.follow`: after some code points the automaton is in the state of the
set of all indices that a path with these code points reaches, and it is nowhere if there is no such
index.
-/

namespace MaximalMunch

open MaximalMunch.Span (Tagged)
open MaximalMunch.Span.Tagged (Maps)

namespace Nfa.Graph

variable {g : Graph} {subset : List Nat} {cp : UInt32}

/-! ## Targets and arcs -/

/-- The moves from a set are the consuming edges from its members. -/
theorem mem_moves {members : CharClass} {j : Nat} :
    (members, j) ∈ g.moves subset ↔ ∃ i ∈ subset, g.Edge i (.oneOf members) j := by
  rw [moves, List.mem_filterMap]
  constructor
  · rintro ⟨⟨l, k⟩, ht, heq⟩
    obtain ⟨i, hi, ht⟩ := List.mem_flatMap.1 ht
    cases l with
    | epsilon => exact absurd heq (by simp)
    | oneOf members' =>
      obtain ⟨rfl, rfl⟩ := Prod.mk.inj (Option.some.inj heq)
      exact ⟨i, hi, ht⟩
  · rintro ⟨i, hi, e⟩
    exact ⟨_, List.mem_flatMap.2 ⟨i, hi, e⟩, rfl⟩

/-- The indices to which a code point leads from a set. -/
theorem mem_targets {j : Nat} :
    j ∈ targets (g.moves subset) cp ↔
      ∃ i ∈ subset, ∃ members, g.Edge i (.oneOf members) j ∧ members.contains cp = true := by
  rw [targets, List.mem_map]
  constructor
  · rintro ⟨⟨members, k⟩, hm, rfl⟩
    obtain ⟨hmove, hcp⟩ := List.mem_filter.1 hm
    obtain ⟨i, hi, e⟩ := mem_moves.1 hmove
    exact ⟨i, hi, members, e, hcp⟩
  · rintro ⟨i, hi, members, e, hcp⟩
    exact ⟨(members, j), List.mem_filter.2 ⟨mem_moves.2 ⟨i, hi, e⟩, hcp⟩, rfl⟩

/-- All code points of an atom have the same targets. -/
theorem targets_eq_of_mem_partition {moves : List (CharClass × Nat)} {atom : Span}
    (ha : atom ∈ CharClass.partition (moves.map (·.1))) (hcp : atom.contains cp = true) :
    targets moves cp = targets moves atom.lo := by
  rw [targets, targets]
  congr 1
  apply List.filter_congr
  intro m hm
  rw [Bool.eq_iff_iff]
  exact CharClass.contains_iff_of_mem_partition ha (List.mem_map.2 ⟨m, hm, rfl⟩) hcp

/-- The arc of an atom, if its code points have targets. -/
def arcOf? (g : Graph) (moves : List (CharClass × Nat)) (atom : Span) : Option Arc :=
  match targets moves atom.lo with
  | [] => none
  | targets => some { atom with tag := g.closure targets }

/-- The arcs of a subset are those over the atoms of its labels, joined where they lead to the same
subset. -/
theorem arcs_eq : g.arcs subset =
    Tagged.joinAll
      ((CharClass.partition ((g.moves subset).map (·.1))).filterMap (g.arcOf? (g.moves subset))) :=
  rfl

/-- There is an arc over an atom if some label holds it, and it leads to the closure of the targets.
-/
theorem arcOf?_eq_some_iff {moves : List (CharClass × Nat)} {atom : Span} {a : Arc} :
    g.arcOf? moves atom = some a ↔
      targets moves atom.lo ≠ [] ∧ a = { atom with tag := g.closure (targets moves atom.lo) } := by
  unfold arcOf?
  cases targets moves atom.lo with
  | nil => simp
  | cons j rest => simp [eq_comm]

/-- An arc has the span of its atom. -/
theorem toSpan_of_arcOf? {moves : List (CharClass × Nat)} {atom : Span} {a : Arc}
    (h : g.arcOf? moves atom = some a) : a.toSpan = atom := by
  obtain ⟨-, rfl⟩ := arcOf?_eq_some_iff.1 h
  rfl

/-- The arcs of the atoms are in increasing order. -/
theorem increasing_filterMap_arcOf? (moves : List (CharClass × Nat)) :
    Tagged.Increasing ((CharClass.partition (moves.map (·.1))).filterMap (g.arcOf? moves)) where
  proper t ht := by
    obtain ⟨atom, hatom, h⟩ := List.mem_filterMap.1 ht
    rw [toSpan_of_arcOf? h]
    exact Span.proper_of_mem_atoms hatom
  ordered := by
    rw [List.pairwise_filterMap]
    refine (Span.pairwise_atoms _).imp fun {s t} hst a ha b hb => ?_
    rw [toSpan_of_arcOf? ha, toSpan_of_arcOf? hb]
    exact hst

/-- Arcs are in increasing order. -/
theorem increasing_arcs (subset : List Nat) : Tagged.Increasing (g.arcs subset) :=
  Tagged.increasing_joinAll (increasing_filterMap_arcOf? _)

/-- The arcs lead a code point to the closure of its targets, and nowhere if it has none. -/
theorem maps_arcs {tag : List Nat} :
    Maps (g.arcs subset) cp tag ↔
      targets (g.moves subset) cp ≠ [] ∧ tag = g.closure (targets (g.moves subset) cp) := by
  rw [arcs_eq, Tagged.maps_joinAll (increasing_filterMap_arcOf? _).proper]
  constructor
  · rintro ⟨a, ha, hcp, rfl⟩
    obtain ⟨atom, hatom, h⟩ := List.mem_filterMap.1 ha
    rw [toSpan_of_arcOf? h] at hcp
    obtain ⟨hne, rfl⟩ := arcOf?_eq_some_iff.1 h
    rw [targets_eq_of_mem_partition hatom hcp]
    exact ⟨hne, rfl⟩
  · rintro ⟨hne, rfl⟩
    -- a target comes from a class, and the class is cut into atoms
    obtain ⟨j, hj⟩ := List.exists_mem_of_ne_nil _ hne
    obtain ⟨i, hi, members, e, hcp⟩ := mem_targets.1 hj
    have hmembers : members ∈ (g.moves subset).map (·.1) :=
      List.mem_map.2 ⟨_, mem_moves.2 ⟨i, hi, e⟩, rfl⟩
    obtain ⟨atom, hatom, hin⟩ := CharClass.exists_mem_partition hmembers hcp
    rw [targets_eq_of_mem_partition hatom hin] at hne ⊢
    exact ⟨_, List.mem_filterMap.2 ⟨atom, hatom, arcOf?_eq_some_iff.2 ⟨hne, rfl⟩⟩, hin, rfl⟩

/-! ## Exploration -/

/-- A row holds an edge for each arc of a set, to the number of the set to which the arc leads. -/
def RowOf (g : Graph) (found : Array (List Nat)) (subset : List Nat) (row : List Dfa.Edge) : Prop :=
  List.Forall₂ (fun a e => e.toSpan = a.toSpan ∧ found[e.target]? = some a.tag) (g.arcs subset) row

/-- A set that an exploration finds: the closure of the entry, or of the targets that some code
point has from another set. -/
def Reached (g : Graph) (subset : List Nat) : Prop :=
  subset = g.closure [0] ∨ ∃ prior cp, targets (g.moves prior) cp ≠ [] ∧
    subset = g.closure (targets (g.moves prior) cp)

/-- A subset that is reached is the closure of some states. -/
theorem Reached.exists_closure (h : g.Reached subset) : ∃ seeds, subset = g.closure seeds := by
  rcases h with h | ⟨prior, cp, -, h⟩
  · exact ⟨_, h⟩
  · exact ⟨_, h⟩

/-- What holds whenever a set is about to be expanded: the sets found are reached, none is found
twice, and the rows are those of the first sets. -/
structure Explored (g : Graph) (found : Array (List Nat)) (rows : Array (List Dfa.Edge)) :
    Prop where
  nodup : found.toList.Nodup
  start : found[0]? = some (g.closure [0])
  reached : ∀ subset ∈ found, g.Reached subset
  row : ∀ (i : Nat) row, rows[i]? = some row →
    ∃ subset, found[i]? = some subset ∧ g.RowOf found subset row

variable {found : Array (List Nat)} {rows : Array (List Dfa.Edge)}

/-- No row comes without its set. -/
theorem Explored.size_le (E : Explored g found rows) : rows.size ≤ found.size := by
  apply Nat.le_of_not_lt
  intro hlt
  obtain ⟨subset, hsubset, -⟩ := E.row found.size rows[found.size] (Array.getElem?_eq_getElem hlt)
  rw [Array.getElem?_eq_none (Nat.le_refl _)] at hsubset
  exact absurd hsubset (by simp)

/-- There are at most as many closures as sets of states. -/
theorem Explored.size_le_shiftLeft (E : Explored g found rows) : found.size ≤ 1 <<< g.size := by
  have hsub : found.toList ⊆ (List.range g.size).sublists := by
    intro subset hsubset
    obtain ⟨seeds, rfl⟩ := (E.reached subset (Array.mem_toList_iff.1 hsubset)).exists_closure
    exact List.mem_sublists.2 closure_sublist
  have hlen := (List.subperm_of_subset E.nodup hsub).length_le
  rw [List.length_sublists, List.length_range] at hlen
  rw [Nat.one_shiftLeft]
  exact hlen

/-- The sets found and the row after the expansion of one set. -/
def expand (g : Graph) (found : Array (List Nat)) (subset : List Nat) :
    Array (List Nat) × List Dfa.Edge :=
  let numbered := Numbering.numberAll Span.Tagged.tag found (g.arcs subset)
  (numbered.1, numbered.2.map fun (a, target) => { a.toSpan with target })

/-- One turn of the search expands the first subset that has no row yet. -/
theorem explore_succ (fuel : Nat) (found : Array (List Nat)) (rows : Array (List Dfa.Edge)) :
    g.explore (fuel + 1) found rows =
      match found[rows.size]? with
      | none => (found, rows)
      | some subset =>
        g.explore fuel (g.expand found subset).1 (rows.push (g.expand found subset).2) :=
  rfl

/-- The new row belongs to the set that is expanded. -/
theorem rowOf_expand (found : Array (List Nat)) (subset : List Nat) :
    g.RowOf (g.expand found subset).1 subset (g.expand found subset).2 := by
  rw [RowOf, expand]
  have hitems : (Numbering.numberAll Tagged.tag found (g.arcs subset)).2.map Prod.fst =
      g.arcs subset :=
    Numbering.map_fst_numberAll ..
  -- arcs and edges are then images of the same items
  conv => arg 2; rw [← hitems]
  rw [List.forall₂_map_left_iff, List.forall₂_map_right_iff, List.forall₂_same]
  rintro ⟨a, target⟩ hmem
  exact ⟨rfl, Numbering.getElem?_numberAll hmem⟩

/-- Rows keep their meaning when more sets are found. -/
theorem RowOf.mono {found' : Array (List Nat)} {row : List Dfa.Edge} (h : g.RowOf found subset row)
    (hmono : ∀ (i : Nat) s, found[i]? = some s → found'[i]? = some s) : g.RowOf found' subset row :=
  h.imp fun _ _ hae => ⟨hae.1, hmono _ _ hae.2⟩

/-- Looking a code point up in a row is looking it up in the arcs. -/
theorem find?_of_forall₂ {arcs : List Arc} {row : List Dfa.Edge}
    (h : List.Forall₂ (fun a e => e.toSpan = a.toSpan ∧ found[e.target]? = some a.tag) arcs row) :
    (∀ e, row.find? (·.contains cp) = some e → ∃ tag, Maps arcs cp tag ∧
      found[e.target]? = some tag) ∧
    (row.find? (·.contains cp) = none → ∀ tag, ¬ Maps arcs cp tag) := by
  induction h with
  | nil =>
    refine ⟨fun e he => by simp at he, fun _ tag hmaps => ?_⟩
    obtain ⟨t, ht, -⟩ := hmaps
    exact List.not_mem_nil ht
  | @cons a e arcs row hae _ ih =>
    obtain ⟨hspan, htarget⟩ := hae
    rw [List.find?_cons]
    cases hcp : e.contains cp with
    | true =>
      refine ⟨fun e' he' => ?_, fun hnone => by simp at hnone⟩
      obtain rfl := Option.some.inj he'
      exact ⟨a.tag, Tagged.maps_cons.2 (Or.inl ⟨hspan ▸ hcp, rfl⟩), htarget⟩
    | false =>
      refine ⟨fun e' he' => ?_, fun hnone tag hmaps => ?_⟩
      · obtain ⟨tag, hmaps, hfound⟩ := ih.1 e' he'
        exact ⟨tag, Tagged.maps_cons.2 (Or.inr hmaps), hfound⟩
      · -- the first arc does not hold the code point, any other one is in the rest
        rcases Tagged.maps_cons.1 hmaps with ⟨hin, -⟩ | hmaps
        · rw [← hspan, hcp] at hin
          exact absurd hin (by simp)
        · exact ih.2 hnone tag hmaps

/-- The expansion of a set finds the closures of the targets that code points have from it. -/
theorem mem_expand {s : List Nat} (hs : s ∈ (g.expand found subset).1) :
    s ∈ found ∨ ∃ cp, targets (g.moves subset) cp ≠ [] ∧
      s = g.closure (targets (g.moves subset) cp) := by
  rcases Numbering.mem_numberAll.1 hs with h | ⟨a, ha, rfl⟩
  · exact Or.inl h
  · -- a new set is the tag of an arc, the closure of the targets of its first code point
    have hproper := (increasing_arcs (g := g) subset).proper a ha
    have hmaps : Maps (g.arcs subset) a.lo a.tag :=
      ⟨a, ha, Span.contains_iff.2 ⟨Nat.le_refl _, hproper⟩, rfl⟩
    exact Or.inr ⟨a.lo, maps_arcs.1 hmaps⟩

/-- The invariant survives the expansion of the next set. -/
theorem Explored.step (E : Explored g found rows) (hnext : found[rows.size]? = some subset) :
    Explored g (g.expand found subset).1 (rows.push (g.expand found subset).2) := by
  have hmono : ∀ (i : Nat) s, found[i]? = some s → (g.expand found subset).1[i]? = some s :=
    fun i s h => Numbering.getElem?_numberAll_of_found h
  refine ⟨Numbering.nodup_numberAll E.nodup, hmono _ _ E.start, fun s hs => ?_,
    fun i row hrow => ?_⟩
  · rcases mem_expand hs with h | ⟨cp, h⟩
    · exact E.reached s h
    · exact Or.inr ⟨subset, cp, h⟩
  · rw [Array.getElem?_push] at hrow
    split at hrow
    · rename_i hi
      subst hi
      obtain rfl := Option.some.inj hrow
      exact ⟨subset, hmono _ _ hnext, rowOf_expand found subset⟩
    · obtain ⟨s, hs, h⟩ := E.row i row hrow
      exact ⟨s, hmono i s hs, h.mono hmono⟩

/-- With a step left for every set of states that has no row yet, the exploration ends with a row
for each set that it has found. -/
theorem explored_explore {fuel : Nat} : ∀ {found : Array (List Nat)} {rows : Array (List Dfa.Edge)},
    Explored g found rows → 1 <<< g.size ≤ rows.size + fuel →
      Explored g (g.explore fuel found rows).1 (g.explore fuel found rows).2 ∧
        (g.explore fuel found rows).2.size = (g.explore fuel found rows).1.size := by
  induction fuel with
  | zero =>
    -- as many rows as there are sets of states, so no set is left without one
    intro found rows E hfuel
    have := E.size_le_shiftLeft
    have := E.size_le
    exact ⟨E, by show rows.size = found.size; omega⟩
  | succ fuel ih =>
    intro found rows E hfuel
    rw [explore_succ]
    split
    · rename_i hnone
      have := Array.getElem?_eq_none_iff.1 hnone
      have := E.size_le
      exact ⟨E, by show rows.size = found.size; omega⟩
    · rename_i subset hnext
      exact ih (E.step hnext) (by rw [Array.size_push]; omega)

/-- The invariant holds before the first expansion. -/
theorem explored_start : Explored g #[g.closure [0]] #[] where
  nodup := by simp
  start := rfl
  reached subset h := Or.inl (by simpa using h)
  row i row h := by simp at h

/-! ## The states of the deterministic automaton -/

/-- The tokens of the accepting states of a set. -/
theorem mem_candidatesOf {t : Nat} :
    t ∈ g.candidatesOf subset ↔
      ∃ i ∈ subset, ∃ owners, g.marks i = some (true, owners) ∧ t ∈ owners := by
  rw [candidatesOf, Ascending.mem_ofList, List.mem_flatMap]
  refine exists_congr fun i => and_congr_right fun _ => ?_
  rw [marks]
  cases g.states[i]? with
  | none => simp
  | some s => cases h : s.accepting <;> simp [h]

/-- Candidates are in increasing order. -/
theorem pairwise_candidatesOf : (g.candidatesOf subset).Pairwise (· < ·) :=
  Ascending.pairwise_ofList _

end Nfa.Graph

open Nfa (Graph)

/-- The automaton `d` is the graph `g` made deterministic: its state with number `i` stands for the
set `sets[i]`. -/
structure Dfa.Determinized (d : Dfa) (g : Graph) (sets : Array (List Nat)) : Prop where
  nodup : sets.toList.Nodup
  start : sets[0]? = some (g.closure [0])
  reached : ∀ subset ∈ sets, g.Reached subset
  size_eq : d.size = sets.size
  state : ∀ (q : Nat) subset, sets[q]? = some subset → ∃ s, d.states[q]? = some s ∧
    s.subset = g.idsOf subset ∧ s.candidates = g.candidatesOf subset ∧
    g.RowOf sets subset s.edges

/-- The deterministic automaton of a graph with states has a state for each set found, with the row
of the set as its edges. -/
theorem Nfa.Graph.determinize_eq_explore {g : Graph} (hg : 0 < g.size) (names : Array String) :
    g.determinize names =
      ⟨(g.explore (1 <<< g.size) #[g.closure [0]] #[]).1.mapIdx fun i subset =>
        { subset := g.idsOf subset
          edges := (g.explore (1 <<< g.size) #[g.closure [0]] #[]).2.getD i []
          candidates := g.candidatesOf subset }, names⟩ := by
  have hne : ¬ g.isEmpty = true := fun h => by
    rw [isEmpty_iff] at h
    omega
  rw [determinize, if_neg hne]

/-- Making a graph with states deterministic gives what it should. -/
theorem Nfa.Graph.exists_determinized {g : Graph} (hg : 0 < g.size) (names : Array String) :
    ∃ sets, (g.determinize names).Determinized g sets := by
  have hfuel : 1 <<< g.size ≤ (#[] : Array (List Dfa.Edge)).size + 1 <<< g.size := by simp
  obtain ⟨E, hsize⟩ := explored_explore (explored_start (g := g)) hfuel
  rw [determinize_eq_explore hg]
  generalize g.explore (1 <<< g.size) #[g.closure [0]] #[] = result at E hsize
  refine ⟨result.1, E.nodup, E.start, E.reached, Array.size_mapIdx, fun q subset hq => ?_⟩
  obtain ⟨hlt, -⟩ := Array.getElem?_eq_some_iff.1 hq
  have hlt' : q < result.2.size := hsize ▸ hlt
  have hrow := Array.getElem?_eq_getElem hlt'
  obtain ⟨subset', hq', hrowOf⟩ := E.row q _ hrow
  obtain rfl : subset' = subset := Option.some.inj (hq'.symm.trans hq)
  refine ⟨⟨g.idsOf subset', result.2[q], g.candidatesOf subset'⟩, ?_, rfl, rfl, hrowOf⟩
  rw [Array.getElem?_mapIdx, hq, Array.getD_eq_getD_getElem?, hrow]
  rfl

/-- The deterministic automaton of a graph without states has one state without edges. -/
theorem Nfa.Graph.determinize_of_size_eq_zero {g : Graph} (hg : g.size = 0)
    (names : Array String) : g.determinize names = ⟨#[{}], names⟩ := by
  rw [determinize, if_pos (isEmpty_iff.2 hg)]

namespace Dfa

variable {d : Dfa} {g : Graph} {sets : Array (List Nat)} {q : Nat} {subset : List Nat} {cp : UInt32}

/-- The state after some code points, if there is one. -/
def follow (d : Dfa) (state : Nat) (w : List UInt32) : Option Nat :=
  w.foldlM d.next state

/-- A text is followed code point by code point. -/
theorem run_eq_follow (d : Dfa) (q : Nat) (cs : List Char) :
    d.run q cs = d.follow q (cs.map Char.val) := by
  rw [run, follow, List.foldlM_map]
  rfl

namespace Determinized

/-- A state stands for the set with its number. -/
theorem exists_set (D : d.Determinized g sets) {s : State} (hs : d.states[q]? = some s) :
    ∃ subset, sets[q]? = some subset ∧ s.subset = g.idsOf subset ∧
      s.candidates = g.candidatesOf subset ∧ g.RowOf sets subset s.edges := by
  obtain ⟨hlt, -⟩ := Array.getElem?_eq_some_iff.1 hs
  have hset := Array.getElem?_eq_getElem (D.size_eq ▸ hlt : q < sets.size)
  obtain ⟨s', hs', h⟩ := D.state q _ hset
  obtain rfl := Option.some.inj (hs.symm.trans hs')
  exact ⟨_, hset, h⟩

/-- The sets are closed. -/
theorem mem_of_path (D : d.Determinized g sets) (hq : sets[q]? = some subset) {s i : Nat}
    (hs : s ∈ subset) (p : g.Path s [] i) (hi : i < g.size) : i ∈ subset := by
  obtain ⟨seeds, rfl⟩ := (D.reached subset (Array.mem_of_getElem? hq)).exists_closure
  obtain ⟨-, s', hs', p'⟩ := Graph.mem_closure.1 hs
  exact Graph.mem_closure.2 ⟨hi, s', hs', p'.append p⟩

/-- The sets consist of states. -/
theorem lt_size_of_mem (D : d.Determinized g sets) (hq : sets[q]? = some subset) {i : Nat}
    (hi : i ∈ subset) : i < g.size := by
  obtain ⟨seeds, rfl⟩ := (D.reached subset (Array.mem_of_getElem? hq)).exists_closure
  exact (Graph.mem_closure.1 hi).1

/-- A code point leads to the state of the closure of its targets, if it has any. -/
theorem next_eq_some (D : d.Determinized g sets) (hq : sets[q]? = some subset) {q' : Nat}
    (h : d.next q cp = some q') :
    sets[q']? = some (g.closure (Graph.targets (g.moves subset) cp)) := by
  obtain ⟨s, hs, -, -, hrow⟩ := D.state q subset hq
  rw [next, hs] at h
  obtain ⟨e, he, rfl⟩ := Option.map_eq_some_iff.1 h
  obtain ⟨tag, hmaps, htarget⟩ := (Graph.find?_of_forall₂ hrow).1 e he
  rw [htarget, (Graph.maps_arcs.1 hmaps).2]

/-- A code point without targets leads nowhere, and no other does. -/
theorem next_eq_none (D : d.Determinized g sets) (hq : sets[q]? = some subset)
    (h : d.next q cp = none) : Graph.targets (g.moves subset) cp = [] := by
  obtain ⟨s, hs, -, -, hrow⟩ := D.state q subset hq
  rw [next, hs] at h
  have hnone := (Graph.find?_of_forall₂ hrow).2 (Option.map_eq_none_iff.1 h)
  by_contra hne
  exact hnone _ (Graph.maps_arcs.2 ⟨hne, rfl⟩)

/-- A path that consumes `cp` first goes on from a target of `cp`. -/
theorem exists_path_cons_iff (D : d.Determinized g sets) (hq : sets[q]? = some subset)
    {w : List UInt32} {i : Nat} :
    (∃ s ∈ subset, g.Path s (cp :: w) i) ↔
      ∃ t ∈ Graph.targets (g.moves subset) cp, g.Path t w i := by
  constructor
  · rintro ⟨s, hs, p⟩
    obtain ⟨j, members, t, p, e, hcp, p'⟩ := Graph.path_cons.1 p
    exact ⟨t, Graph.mem_targets.2 ⟨j, D.mem_of_path hq hs p e.lt_size, members, e, hcp⟩, p'⟩
  · rintro ⟨t, ht, p⟩
    obtain ⟨s, hs, members, e, hcp⟩ := Graph.mem_targets.1 ht
    exact ⟨s, hs, .consume e hcp p⟩

/-- From the state that a code point leads to, the rest of a word reaches what the whole word
reaches from the state before. -/
theorem exists_path_closure_targets_iff (D : d.Determinized g sets) (hq : sets[q]? = some subset)
    {w : List UInt32} {i : Nat} (hi : i < g.size) :
    (∃ s ∈ g.closure (Graph.targets (g.moves subset) cp), g.Path s w i) ↔
      ∃ s ∈ subset, g.Path s (cp :: w) i := by
  rw [D.exists_path_cons_iff hq]
  constructor
  · rintro ⟨s, hs, p⟩
    obtain ⟨-, t, ht, p'⟩ := Graph.mem_closure.1 hs
    exact ⟨t, ht, p'.append p⟩
  · rintro ⟨t, ht, p⟩
    exact ⟨t, Graph.mem_closure.2 ⟨p.lt_size hi, t, ht, .nil t⟩, p⟩

/-- After some code points the automaton is in the state of the set of all indices that a path with
these code points reaches; if it is nowhere, no index is reached. -/
theorem follow (D : d.Determinized g sets) (w : List UInt32) : ∀ {q : Nat} {subset : List Nat},
    sets[q]? = some subset →
      (∀ q', d.follow q w = some q' → ∃ subset', sets[q']? = some subset' ∧
        ∀ i, i ∈ subset' ↔ i < g.size ∧ ∃ s ∈ subset, g.Path s w i) ∧
      (d.follow q w = none → ∀ i < g.size, ∀ s ∈ subset, ¬ g.Path s w i) := by
  induction w with
  | nil =>
    intro q subset hq
    refine ⟨fun q' hq' => ?_, fun hnone => by simp [Dfa.follow] at hnone⟩
    obtain rfl := Option.some.inj hq'
    refine ⟨subset, hq, fun i => ⟨fun hi => ⟨D.lt_size_of_mem hq hi, i, hi, .nil i⟩, ?_⟩⟩
    rintro ⟨hi, s, hs, p⟩
    exact D.mem_of_path hq hs p hi
  | cons cp w ih =>
    intro q subset hq
    have hcons : d.follow q (cp :: w) = (d.next q cp).bind fun q' => d.follow q' w := rfl
    rw [hcons]
    cases hnext : d.next q cp with
    | none =>
      -- without targets of `cp` no path can consume it
      refine ⟨fun q' hq' => by simp at hq', fun _ i _ s hs p => ?_⟩
      obtain ⟨t, ht, -⟩ := (D.exists_path_cons_iff hq).1 ⟨s, hs, p⟩
      rw [D.next_eq_none hq hnext] at ht
      exact List.not_mem_nil ht
    | some q₁ =>
      obtain ⟨hsome, hnone⟩ := ih (D.next_eq_some hq hnext)
      refine ⟨fun q' hq' => ?_, fun h i hi s hs p => ?_⟩
      · obtain ⟨subset', hsubset', hmem⟩ := hsome q' hq'
        exact ⟨subset', hsubset', fun i => (hmem i).trans
          (and_congr_right fun hi => D.exists_path_closure_targets_iff hq hi)⟩
      · obtain ⟨t, ht, p'⟩ := (D.exists_path_closure_targets_iff hq hi).2 ⟨s, hs, p⟩
        exact hnone h i hi t ht p'

end Determinized

end Dfa

/-! ## From the entry on -/

namespace Nfa.Graph

variable {g : Graph} {names : Array String}

/-- A path from the closure of the entry is a path from the entry. -/
theorem exists_path_closure_iff {w : List UInt32} {i : Nat} (hi : i < g.size) :
    (∃ s ∈ g.closure [0], g.Path s w i) ↔ g.Path 0 w i := by
  constructor
  · rintro ⟨s, hs, p⟩
    obtain ⟨-, s', hs', p'⟩ := mem_closure.1 hs
    rw [List.mem_singleton.1 hs'] at p'
    exact p'.append p
  · intro p
    exact ⟨0, mem_closure.2 ⟨p.lt_size hi, 0, List.mem_singleton.2 rfl, .nil 0⟩, p⟩

/-- The state after some code points has the owners of the accepting states that a path with these
code points reaches as candidates. -/
theorem mem_candidates_of_follow (hg : 0 < g.size) {w : List UInt32} {q : Nat}
    (hq : (g.determinize names).follow 0 w = some q) :
    ∃ s, (g.determinize names).states[q]? = some s ∧ s.candidates.Pairwise (· < ·) ∧
      ∀ t, t ∈ s.candidates ↔
        ∃ i owners, g.Path 0 w i ∧ g.marks i = some (true, owners) ∧ t ∈ owners := by
  obtain ⟨sets, D⟩ := exists_determinized hg names
  obtain ⟨subset, hsubset, hmem⟩ := (D.follow w D.start).1 q hq
  obtain ⟨s, hs, -, hcandidates, -⟩ := D.state q subset hsubset
  refine ⟨s, hs, hcandidates ▸ pairwise_candidatesOf, fun t => ?_⟩
  rw [hcandidates, mem_candidatesOf]
  constructor
  · rintro ⟨i, hi, owners, hmarks, ht⟩
    obtain ⟨hlt, hpath⟩ := (hmem i).1 hi
    exact ⟨i, owners, (exists_path_closure_iff hlt).1 hpath, hmarks, ht⟩
  · rintro ⟨i, owners, p, hmarks, ht⟩
    have hlt := lt_size_of_marks hmarks
    exact ⟨i, (hmem i).2 ⟨hlt, (exists_path_closure_iff hlt).2 p⟩, owners, hmarks, ht⟩

/-- If there is no state after some code points, no path with these code points goes anywhere. -/
theorem not_path_of_follow (hg : 0 < g.size) {w : List UInt32}
    (h : (g.determinize names).follow 0 w = none) {i : Nat} (hi : i < g.size) :
    ¬ g.Path 0 w i := by
  obtain ⟨sets, D⟩ := exists_determinized hg names
  intro p
  obtain ⟨s, hs, p'⟩ := (exists_path_closure_iff hi).2 p
  exact (D.follow w D.start).2 h i hi s hs p'

/-- Candidates of any state are owners of accepting states. -/
theorem exists_marks_of_mem_candidates (hg : 0 < g.size) {q : Nat} {s : Dfa.State}
    (hs : (g.determinize names).states[q]? = some s) {t : Nat} (ht : t ∈ s.candidates) :
    ∃ i owners, g.marks i = some (true, owners) ∧ t ∈ owners := by
  obtain ⟨sets, D⟩ := exists_determinized hg names
  obtain ⟨subset, -, -, hcandidates, -⟩ := D.exists_set hs
  rw [hcandidates, mem_candidatesOf] at ht
  obtain ⟨i, -, owners, h⟩ := ht
  exact ⟨i, owners, h⟩

end Nfa.Graph

end MaximalMunch
