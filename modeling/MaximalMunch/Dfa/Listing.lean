import MaximalMunch.CharClass.Label
import MaximalMunch.Dfa.Basic

/-!
# Listings

A `Dfa` as text: a line for each state with the set it stands for and its token, and under it a line
for each edge.
-/

namespace MaximalMunch.Dfa

/-- The line of an edge. -/
def Edge.line (e : Edge) : String :=
  let label := (CharClass.ofSpans [e.toSpan]).label
  s!"  {label} -> d{e.target}\n"

/-- The set for which a state stands, in braces. -/
def State.subsetText (s : State) : String :=
  let members := s.subset.map fun id => s!"s{id}"
  String.ofList ('{' :: ((String.intercalate "," members).toList ++ ['}']))

/-- The lines of the state with number `i`. -/
def State.lines (names : Array String) (i : Nat) (s : State) : String :=
  let accept :=
    match s.token with
    | some t => " accept=" ++ names.getD t ""
    | none => ""
  s!"d{i} " ++ s.subsetText ++ accept ++ "\n" ++ String.join (s.edges.map Edge.line)

/-- The listing of an automaton. -/
def listing (d : Dfa) : String :=
  String.join (d.states.mapIdx (State.lines d.tokenNames)).toList

end MaximalMunch.Dfa
