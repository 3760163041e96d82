import MaximalMunch.Dfa.Subsets
import MaximalMunch.Nfa.Fragment

/-!
# Token automata

The automaton of one token, made from the first pattern declared for its name and extended by every
further one. The automaton that joins all tokens of a definition has no name.
-/

namespace MaximalMunch

open Nfa (Graph)

/-- The automaton of a token. -/
structure TokenAutomaton where
  name : Option String
  /-- The place among all tokens in the order of declaration; the earlier token wins. -/
  index : Nat
  /-- The token can be referred to, but it is never reported. -/
  internal : Bool
  graph : Graph
deriving DecidableEq

namespace TokenAutomaton

/-- The token of a pattern, with ids from `next` on. Its exit accepts for the token alone. -/
def ofPattern (resolve : String → Option Graph) (next : Nat) (name : String) (index : Nat)
    (pattern : String) (internal : Bool) : Except Regex.CompileError TokenAutomaton := do
  let graph ← Regex.compile resolve pattern next
  return ⟨name, index, internal, graph.acceptAtExit [index]⟩

/-- A graph as it is, under a name or none. -/
def ofGraph (name : Option String) (graph : Graph) : TokenAutomaton :=
  ⟨name, 0, false, graph⟩

/-- The token with `other` as a further way of matching it. The new entry and exit have the ids
`next` and `next + 1`. If one of the two old exits accepts, the new exit does, for the owners of
both. -/
def alternate (t : TokenAutomaton) (other : Graph) (next : Nat) : TokenAutomaton :=
  let parts := [t.graph, other]
  let exits := parts.filterMap fun g => g.states[g.exit]?
  let joined := Graph.alternatives next (next + 1) (parts.map Graph.demoteExit)
  let graph :=
    if exits.any (·.accepting) then joined.acceptAtExit (exits.flatMap (·.owners)) else joined
  { t with graph }

/-- The fragment of the token alone: its exit accepts for index 0, with ids from 0 on. -/
def isolated (t : TokenAutomaton) : Graph :=
  (t.graph.copy 0).clearAcceptance.acceptAtExit [0]

/-- The deterministic automaton of the token on its own. -/
def toDfa (t : TokenAutomaton) : Dfa :=
  t.isolated.determinize #[t.name.getD ""]

end TokenAutomaton

end MaximalMunch
