import MaximalMunch.CharClass.Basic

/-!
# Deterministic automata

Each state of a `Dfa` stands for a set of states of a nondeterministic automaton and has one edge
per span of code points. The start is state 0. A state is accepting if it has candidates, the
indices of the tokens that match here; the first of them wins.
-/

namespace MaximalMunch

/-- An edge: the code points of a span lead to the state `target`. -/
structure Dfa.Edge extends Span where
  target : Nat
deriving DecidableEq

/-- A state. -/
structure Dfa.State where
  /-- The ids of the states it stands for, in increasing order. -/
  subset : List Nat := []
  edges : List Dfa.Edge := []
  /-- The indices of the tokens that match here, in increasing order. -/
  candidates : List Nat := []
deriving DecidableEq, Inhabited

/-- A deterministic automaton with the names of its tokens. -/
structure Dfa where
  states : Array Dfa.State
  tokenNames : Array String
deriving DecidableEq

namespace Dfa

/-- Where a code point leads from a state. -/
def State.next (s : State) (cp : UInt32) : Option Nat :=
  (s.edges.find? (·.contains cp)).map (·.target)

/-- The index of the winning token of a state. -/
def State.token (s : State) : Option Nat :=
  s.candidates.head?

/-- The number of states. -/
def size (d : Dfa) : Nat := d.states.size

/-- The first state of every run. -/
def start (_ : Dfa) : Nat := 0

/-- Where a code point leads from a state, nowhere from a number that is no state. -/
def next (d : Dfa) (state : Nat) (cp : UInt32) : Option Nat := do
  (← d.states[state]?).next cp

/-- Where a character leads from a state. -/
def step (d : Dfa) (state : Nat) (c : Char) : Option Nat :=
  d.next state c.val

/-- The name of the token that a match ending in a state reports. -/
def accepting (d : Dfa) (state : Nat) : Option String := do
  d.tokenNames[← (← d.states[state]?).token]?

/-- The state after a text, if there is one. -/
def run (d : Dfa) (state : Nat) (cs : List Char) : Option Nat :=
  cs.foldlM d.step state

/-- The name of the token of which the whole text is a match. -/
def accepts (d : Dfa) (text : String) : Option String := do
  d.accepting (← d.run d.start text.toList)

end Dfa

end MaximalMunch
