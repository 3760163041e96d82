import Mathlib.Logic.Relation
import MaximalMunch.Proofs.Dfa.Edges

/-!
# Termination of subset construction

The closure of a set of states and the exploration of sets are loops over a worklist, and the
functions that run them are given a number of turns at which they would stop in any case. Here the
loops stand by themselves (`spreadTurn`, `exploreTurn`), and both come to an end of their own before
the given number of turns is used up (`halts_spread`, `halts_explore`).

A turn of the first loop takes a state off the stack, and a state goes on the stack only when it
becomes marked, so the states on the stack and the unmarked ones bound the turns to come. A turn of
the second loop makes the row of one set, and the sets found are different subsets of the states, so
those that have no row yet bound the turns to come.
-/

namespace MaximalMunch

/-- From the state `s` a loop takes `n` turns and stops in the state `t`. -/
inductive Halts {σ : Type} (turn : σ → Option σ) : Nat → σ → σ → Prop
  | stop {s : σ} (h : turn s = none) : Halts turn 0 s s
  | turn {s s' t : σ} {n : Nat} (h : turn s = some s') (rest : Halts turn n s' t) :
      Halts turn (n + 1) s t

/-- What every turn keeps holds when the loop stops. -/
theorem Halts.invariant {σ : Type} {turn : σ → Option σ} {n : Nat} {s t : σ} {P : σ → Prop}
    (H : Halts turn n s t) (hturn : ∀ s s', turn s = some s' → P s → P s') (hs : P s) : P t := by
  induction H with
  | stop => exact hs
  | turn h _ ih => exact ih (hturn _ _ h hs)

namespace Nfa.Graph

open MaximalMunch.Span.Tagged (Maps)

variable {g : Graph} {subset : List Nat}

/-! ## The closure -/

/-- Takes a state off the stack and marks its targets. -/
def spreadTurn (g : Graph) : Array Bool × List Nat → Option (Array Bool × List Nat)
  | (_, []) => none
  | (marked, i :: stack) => some (mark marked stack (g.epsilonTargets i))

/-- The loop of the closure stops with an empty stack, after as many turns at most as there are
states on the stack or unmarked. -/
theorem halts_spread {fuel : Nat} : ∀ {marked : Array Bool} {stack : List Nat},
    stack.length + marked.toList.count false ≤ fuel →
      ∃ n ≤ fuel, Halts g.spreadTurn n (marked, stack) (g.spread fuel marked stack, []) := by
  induction fuel with
  | zero =>
    intro marked stack hfuel
    obtain rfl : stack = [] := List.length_eq_zero_iff.1 (by omega)
    exact ⟨0, Nat.le_refl 0, .stop rfl⟩
  | succ fuel ih =>
    intro marked stack hfuel
    cases stack with
    | nil => exact ⟨0, Nat.zero_le _, .stop rfl⟩
    | cons i stack =>
      have hnext : (mark marked stack (g.epsilonTargets i)).2.length +
          (mark marked stack (g.epsilonTargets i)).1.toList.count false ≤ fuel := by
        rw [length_mark]
        rw [List.length_cons] at hfuel
        omega
      obtain ⟨n, hn, H⟩ := ih hnext
      exact ⟨n + 1, Nat.succ_le_succ hn, .turn rfl H⟩

/-- What a path without code points reaches is reached by edges that consume nothing. -/
theorem path_nil_iff {i j : Nat} :
    g.Path i [] j ↔ Relation.ReflTransGen (g.Edge · .epsilon ·) i j := by
  constructor
  · intro p
    generalize hw : ([] : List UInt32) = w at p
    induction p with
    | nil => exact .refl
    | epsilon e _ ih => exact .head e (ih hw)
    | consume => exact absurd hw (by simp)
  · intro h
    induction h using Relation.ReflTransGen.head_induction_on with
    | refl => exact .nil j
    | head e _ ih => exact .epsilon e ih

/-- With transitions in range nothing that is reached from the seeds is missing in their closure. -/
theorem mem_closure_iff_reflTransGen (hrange : g.InRange) {seeds : List Nat}
    (hseeds : ∀ s ∈ seeds, s < g.size) {i : Nat} :
    i ∈ g.closure seeds ↔ ∃ s ∈ seeds, Relation.ReflTransGen (g.Edge · .epsilon ·) s i := by
  rw [mem_closure]
  constructor
  · rintro ⟨-, s, hs, p⟩
    exact ⟨s, hs, path_nil_iff.1 p⟩
  · rintro ⟨s, hs, h⟩
    have p := path_nil_iff.2 h
    exact ⟨p.lt_size_of_inRange hrange (hseeds s hs), s, hs, p⟩

/-! ## The exploration -/

/-- Expands the first set that has no row yet. -/
def exploreTurn (g : Graph) : Array (List Nat) × Array (List Dfa.Edge) →
    Option (Array (List Nat) × Array (List Dfa.Edge))
  | (found, rows) =>
    found[rows.size]?.map fun subset =>
      ((g.expand found subset).1, rows.push (g.expand found subset).2)

/-- The sets on which a loop comes that starts with the closure of the entry and goes on from each
set by all code points that have targets there. -/
inductive Visited (g : Graph) : List Nat → Prop
  | entry : Visited g (g.closure [0])
  | move {subset : List Nat} {cp : UInt32} (h : Visited g subset)
      (hne : targets (g.moves subset) cp ≠ []) :
      Visited g (g.closure (targets (g.moves subset) cp))

variable {found : Array (List Nat)} {rows : Array (List Dfa.Edge)}

/-- The loop of the exploration stops before the given number of turns is used up. Every turn makes
one row. -/
theorem halts_explore {fuel : Nat} : ∀ {found : Array (List Nat)} {rows : Array (List Dfa.Edge)},
    Explored g found rows → 1 <<< g.size ≤ rows.size + fuel →
      ∃ n, Halts g.exploreTurn n (found, rows) (g.explore fuel found rows) ∧
        (g.explore fuel found rows).2.size = rows.size + n := by
  induction fuel with
  | zero =>
    intro found rows E hfuel
    -- there are no more sets than rows, so none is left to explore
    have hnone : found[rows.size]? = none := by
      have := E.size_le_shiftLeft
      exact Array.getElem?_eq_none (by omega)
    exact ⟨0, .stop (by rw [exploreTurn, hnone]; rfl), rfl⟩
  | succ fuel ih =>
    intro found rows E hfuel
    rw [explore_succ]
    split
    · rename_i hnone
      exact ⟨0, .stop (by rw [exploreTurn, hnone]; rfl), rfl⟩
    · rename_i subset hnext
      obtain ⟨n, H, hsize⟩ := ih (E.step hnext) (by rw [Array.size_push]; omega)
      refine ⟨n + 1, .turn (by rw [exploreTurn, hnext]; rfl) H, ?_⟩
      rw [hsize, Array.size_push]
      omega

/-- Only sets that are visited are found. -/
theorem visited_of_exploreTurn {s s' : Array (List Nat) × Array (List Dfa.Edge)}
    (h : g.exploreTurn s = some s') (hs : ∀ subset ∈ s.1, g.Visited subset) :
    ∀ subset ∈ s'.1, g.Visited subset := by
  obtain ⟨subset, hnext, rfl⟩ := Option.map_eq_some_iff.1 h
  intro set hset
  rcases mem_expand hset with hold | ⟨cp, hne, rfl⟩
  · exact hs set hold
  · exact .move (hs subset (Array.mem_of_getElem? hnext)) hne

/-- An arc of a set belongs to an edge of its row. -/
theorem RowOf.exists_edge {row : List Dfa.Edge} (h : g.RowOf found subset row) {a : Arc}
    (ha : a ∈ g.arcs subset) : ∃ e ∈ row, found[e.target]? = some a.tag := by
  obtain ⟨hlength, hrow⟩ := List.forall₂_iff_get.1 h
  obtain ⟨k, hk, rfl⟩ := List.getElem_of_mem ha
  exact ⟨row[k], List.getElem_mem _, (hrow k hk (hlength ▸ hk)).2⟩

/-- Once every set has its row, all visited sets are found. -/
theorem Explored.mem_of_visited (E : Explored g found rows) (hsize : rows.size = found.size)
    (h : g.Visited subset) : subset ∈ found := by
  induction h with
  | entry => exact Array.mem_of_getElem? E.start
  | @move subset cp _ hne ih =>
    obtain ⟨i, hi⟩ := Array.getElem?_of_mem ih
    obtain ⟨hlt, -⟩ := Array.getElem?_eq_some_iff.1 hi
    obtain ⟨set, hset, hrow⟩ := E.row i _ (Array.getElem?_eq_getElem (hsize ▸ hlt))
    obtain rfl : subset = set := Option.some.inj (hi.symm.trans hset)
    -- the row of the set has an edge for the arc of the code point
    obtain ⟨a, ha, -, htag⟩ := maps_arcs.2 ⟨hne, rfl⟩
    obtain ⟨e, -, htarget⟩ := hrow.exists_edge ha
    rw [htag] at htarget
    exact Array.mem_of_getElem? htarget

/-- The loop of the exploration stops with a row for each set. The sets it has found, none of them
twice, are the visited ones, and there are no more of them than subsets of the states. -/
theorem exists_halts_exploreTurn (g : Graph) : ∃ sets rows,
    g.explore (1 <<< g.size) #[g.closure [0]] #[] = (sets, rows) ∧
      Halts g.exploreTurn sets.size (#[g.closure [0]], #[]) (sets, rows) ∧ sets.toList.Nodup ∧
      (∀ subset, subset ∈ sets ↔ g.Visited subset) ∧ 0 < sets.size ∧ sets.size ≤ 2 ^ g.size := by
  have hfuel : 1 <<< g.size ≤ (#[] : Array (List Dfa.Edge)).size + 1 <<< g.size := by simp
  obtain ⟨E, hsize⟩ := explored_explore (explored_start (g := g)) hfuel
  obtain ⟨n, H, hturns⟩ := halts_explore (explored_start (g := g)) hfuel
  generalize g.explore (1 <<< g.size) #[g.closure [0]] #[] = result at E hsize H hturns
  obtain ⟨sets, rows⟩ := result
  obtain rfl : n = sets.size := by simpa using hturns.symm.trans hsize
  refine ⟨sets, rows, rfl, H, E.nodup, fun subset => ⟨fun hmem => ?_, E.mem_of_visited hsize⟩, ?_,
    ?_⟩
  · refine H.invariant (fun _ _ => visited_of_exploreTurn) (fun set hset => ?_) subset hmem
    rw [Array.mem_singleton.1 hset]
    exact .entry
  · exact (Array.getElem?_eq_some_iff.1 E.start).1
  · exact Nat.le_trans E.size_le_shiftLeft (Nat.le_of_eq (Nat.one_shiftLeft _))

/-- If the transitions of a graph are in range, whatever cycles they form, subset construction
comes to an end. The loop of a closure stops after as many turns at most as there are states, and
the closure is what it leaves marked, in order and each state once: the states that edges without
code points reach from the seeds. The loop of the exploration stops after one turn for each set that
it has found. It finds each visited set once, all of them sets of states in order, and makes the
states of the deterministic automaton of them; a graph without states gives one state without the
loop. So there are from 1 to `2 ^ n` states for a graph with `n` of them. -/
theorem determinize_terminates (hrange : g.InRange) (names : Array String) :
    (∀ seeds : List Nat, (∀ s ∈ seeds, s < g.size) → ∃ turns marked, turns ≤ g.size ∧
      Halts g.spreadTurn turns (mark (Array.replicate g.size false) [] seeds) (marked, []) ∧
      g.closure seeds = ((List.range g.size).filter fun i => marked[i]? = some true) ∧
      (g.closure seeds).Pairwise (· < ·) ∧
      ∀ i, i ∈ g.closure seeds ↔ ∃ s ∈ seeds, Relation.ReflTransGen (g.Edge · .epsilon ·) s i) ∧
    (0 < g.size → ∃ sets rows,
      Halts g.exploreTurn sets.size (#[g.closure [0]], #[]) (sets, rows) ∧
      sets.toList.Nodup ∧ (∀ subset, subset ∈ sets ↔ g.Visited subset) ∧
      (∀ subset ∈ sets, subset.Sublist (List.range g.size)) ∧
      g.determinize names = ⟨sets.mapIdx fun i subset =>
        { subset := g.idsOf subset, edges := rows.getD i [],
          candidates := g.candidatesOf subset }, names⟩) ∧
    1 ≤ (g.determinize names).size ∧ (g.determinize names).size ≤ 2 ^ g.size := by
  obtain ⟨sets, rows, hexplore, H, hnodup, hvisited, hpos, hle⟩ := exists_halts_exploreTurn g
  refine ⟨fun seeds hseeds => ?_, fun hg => ⟨sets, rows, H, hnodup, hvisited,
    fun subset hsubset => ?_, by rw [determinize_eq_explore hg, hexplore]⟩, ?_⟩
  · -- marking takes a state from the unmarked ones to the stack, and their sum stays
    have hfuel : (mark (Array.replicate g.size false) [] seeds).2.length +
        (mark (Array.replicate g.size false) [] seeds).1.toList.count false ≤ g.size := by
      rw [length_mark]
      simp
    obtain ⟨turns, hturns, hhalts⟩ := halts_spread (g := g) hfuel
    exact ⟨turns, _, hturns, hhalts, rfl, pairwise_closure,
      fun i => mem_closure_iff_reflTransGen hrange hseeds⟩
  · cases (hvisited subset).1 hsubset with
    | entry => exact closure_sublist
    | move => exact closure_sublist
  · rcases Nat.eq_zero_or_pos g.size with hg | hg
    · rw [determinize_of_size_eq_zero hg, hg]
      exact ⟨Nat.le_refl 1, Nat.le_refl 1⟩
    · rw [determinize_eq_explore hg, hexplore, Dfa.size, Array.size_mapIdx]
      exact ⟨hpos, hle⟩

/-- Two states that lead to each other and one of them to itself without code points, and a state
that leads to itself by one. -/
theorem determinize_terminates_cycle :
    let g : Graph := ⟨#[
      { id := 0, transitions := [⟨.epsilon, 1⟩] },
      { id := 1, transitions := [⟨.epsilon, 0⟩, ⟨.epsilon, 1⟩, ⟨.oneOf (.single 'a'), 2⟩] },
      { id := 2, accepting := true, owners := [0], transitions := [⟨.oneOf (.single 'a'), 2⟩] }]⟩
    g.InRange ∧ (∀ s ∈ [1], s < g.size) ∧ 0 < g.size ∧
      (∃ turns marked, turns ≤ 3 ∧
        Halts g.spreadTurn turns (#[false, true, false], [1]) (marked, [])) ∧
      0 ∈ g.closure [1] ∧
      ∃ sets rows, Halts g.exploreTurn sets.size (#[g.closure [0]], #[]) (sets, rows) ∧
        sets.toList.Nodup ∧ [2] ∈ sets := by
  intro g
  have hrange : g.InRange := inRange_of_forall_mem (by decide)
  have hseeds : ∀ s ∈ [1], s < g.size := by decide
  obtain ⟨hclosure, hexplore, -⟩ := determinize_terminates hrange #["x"]
  obtain ⟨turns, marked, hturns, H, -, -, hmem⟩ := hclosure [1] hseeds
  obtain ⟨sets, rows, H', hnodup, hvisited, -⟩ := hexplore (by decide)
  have hback : g.Edge 1 .epsilon 0 := .head _
  have hzero : 0 ∈ g.closure [1] := (hmem 0).2 ⟨1, .head _, .single hback⟩
  have htwo : g.Visited (g.closure (targets (g.moves (g.closure [0])) 0x61)) :=
    .move .entry (by decide +kernel)
  have htargets : g.closure (targets (g.moves (g.closure [0])) 0x61) = [2] := by decide +kernel
  rw [htargets] at htwo
  exact ⟨hrange, hseeds, by decide, ⟨turns, marked, hturns, H⟩, hzero, sets, rows, H', hnodup,
    (hvisited [2]).2 htwo⟩

end Nfa.Graph

end MaximalMunch
