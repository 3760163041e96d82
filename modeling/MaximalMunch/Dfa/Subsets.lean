import MaximalMunch.CharClass.Atoms
import MaximalMunch.CharClass.Tagged
import MaximalMunch.Dfa.Basic
import MaximalMunch.Nfa.Closure
import MaximalMunch.Numbering

/-!
# Subset construction

A set of states of a graph is kept as the list of their indices in increasing order. From such a set
the code points fall into spans with one successor set each: its `arcs`. `Nfa.Graph.determinize`
explores the sets that can be reached from the closure of the entry, in the order in which they are
found, and makes each of them a state.
-/

namespace MaximalMunch

namespace Nfa

/-- A span of code points, tagged with the set of states to which it leads. -/
abbrev Arc := Span.Tagged (List Nat)

namespace Graph

/-- The consuming transitions from a set of states: what each consumes and where it leads. -/
def moves (g : Graph) (subset : List Nat) : List (CharClass × Nat) :=
  (subset.flatMap g.transitions).filterMap fun t =>
    match t.label with
    | .epsilon => none
    | .oneOf members => some (members, t.target)

/-- The states to which `cp` leads directly by some moves. -/
def targets (moves : List (CharClass × Nat)) (cp : UInt32) : List Nat :=
  (moves.filter (·.1.contains cp)).map (·.2)

/-- The arcs from a set of states, in the order of their spans. -/
def arcs (g : Graph) (subset : List Nat) : List Arc :=
  let moves := g.moves subset
  Span.Tagged.joinAll <| (CharClass.partition (moves.map (·.1))).filterMap fun atom =>
    match targets moves atom.lo with
    | [] => none
    | targets => some { atom with tag := g.closure targets }

/-- Expands the sets found so far in their order, at most `fuel` of them; `rows` holds the edges of
those expanded already. -/
def explore (g : Graph) :
    Nat → Array (List Nat) → Array (List Dfa.Edge) → Array (List Nat) × Array (List Dfa.Edge)
  | 0, found, rows => (found, rows)
  | fuel + 1, found, rows =>
    match found[rows.size]? with
    | none => (found, rows)
    | some subset =>
      let (found, arcs) := Numbering.numberAll Span.Tagged.tag found (g.arcs subset)
      let row := arcs.map fun (a, target) => { a.toSpan with target }
      explore g fuel found (rows.push row)

/-- The ids of the states of a set, in increasing order. -/
def idsOf (g : Graph) (subset : List Nat) : List Nat :=
  (subset.filterMap fun i => g.states[i]?.map State.id).mergeSort

/-- The owners of the accepting states of a set, each once, in increasing order. -/
def candidatesOf (g : Graph) (subset : List Nat) : List Nat :=
  Ascending.ofList <| subset.flatMap fun i =>
    match g.states[i]? with
    | some s => if s.accepting then s.owners else []
    | none => []

/-- The deterministic automaton of a graph that is entered at index 0. The token at index `i` has
the states with owner `i` and the name `names[i]`. Of `n` states there are `2 ^ n` sets, so the
exploration ends with all of them expanded. A graph without states gives one state without edges. -/
def determinize (g : Graph) (names : Array String) : Dfa :=
  if g.isEmpty then ⟨#[{}], names⟩
  else
    let (found, rows) := g.explore (1 <<< g.size) #[g.closure [0]] #[]
    let states := found.mapIdx fun i subset =>
      { subset := g.idsOf subset, edges := rows.getD i [], candidates := g.candidatesOf subset }
    ⟨states, names⟩

end Graph

end Nfa

end MaximalMunch
