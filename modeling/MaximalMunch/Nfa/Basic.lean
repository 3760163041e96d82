import MaximalMunch.Ascending
import MaximalMunch.CharClass.Basic
import MaximalMunch.Regex.Basic

/-!
# Nondeterministic automata

A `Graph` holds its states in an array, and a transition leads to an index of that array. Fragments
of patterns are entered at index 0 and left at the last index. Besides its index a state has an
`id`, a number that no other state of one construction has: `Graph.copy` and the constructors of
fragments take the next free number and use as many as they make states.
-/

namespace MaximalMunch.Nfa

/-- What a transition consumes: nothing, or one member of a class. -/
inductive Label where
  | epsilon
  | oneOf (members : CharClass)
deriving DecidableEq

/-- A transition to the state at index `target` of the same graph. -/
structure Transition where
  label : Label
  target : Nat
deriving DecidableEq

/-- A state. Its owners are the indices, in increasing order, of the tokens that a match ending here
belongs to. -/
structure State where
  id : Nat
  accepting : Bool := false
  owners : List Nat := []
  transitions : List Transition := []
deriving DecidableEq

namespace State

/-- The state with one owner more. -/
def addOwner (s : State) (token : Nat) : State :=
  { s with owners := Ascending.insert token s.owners }

/-- The state as it is inside a larger match: it neither accepts nor has owners. -/
def demote (s : State) : State :=
  { s with accepting := false, owners := [] }

/-- The state with a further transition, after those it has. -/
def addTransition (s : State) (t : Transition) : State :=
  { s with transitions := s.transitions ++ [t] }

/-- The state with the targets of its transitions moved up by `offset`. -/
def shift (offset : Nat) (s : State) : State :=
  { s with transitions := s.transitions.map fun t => { t with target := t.target + offset } }

end State

/-- States in a fixed order. -/
structure Graph where
  states : Array State
deriving DecidableEq

namespace Graph

/-- The graph without states. -/
def empty : Graph := ⟨#[]⟩

instance : Inhabited Graph := ⟨empty⟩

/-- The number of states. -/
def size (g : Graph) : Nat := g.states.size

/-- The graph has no states. -/
def isEmpty (g : Graph) : Bool := g.states.isEmpty

/-- The index at which a fragment is left. -/
def exit (g : Graph) : Nat := g.size - 1

/-- The transitions of the state at an index, none beyond the last state. -/
def transitions (g : Graph) (i : Nat) : List Transition :=
  (g.states[i]?.map State.transitions).getD []

/-- The graph with one state more, at the end. -/
def add (g : Graph) (s : State) : Graph := ⟨g.states.push s⟩

/-- The graph with the state at an index changed. -/
def modify (g : Graph) (i : Nat) (f : State → State) : Graph := ⟨g.states.modify i f⟩

/-- The graph with a further transition. -/
def connect (g : Graph) (source : Nat) (label : Label) (target : Nat) : Graph :=
  g.modify source (·.addTransition ⟨label, target⟩)

/-- The graph with a further transition that consumes nothing. -/
def connectEpsilon (g : Graph) (source target : Nat) : Graph :=
  g.connect source .epsilon target

/-- The states of `g` and after them those of `h`, which keep their ids. What was at index `i` of
`h` is at index `g.size + i`. -/
def append (g h : Graph) : Graph := ⟨g.states ++ h.states.map (State.shift g.size)⟩

/-- The same graph with ids from `next` on. -/
def copy (g : Graph) (next : Nat) : Graph :=
  ⟨g.states.mapIdx fun i s => { s with id := next + i }⟩

/-- The graph without accepting states and owners. -/
def clearAcceptance (g : Graph) : Graph := ⟨g.states.map State.demote⟩

/-- The graph whose exit accepts, with further owners. -/
def acceptAtExit (g : Graph) (owners : List Nat) : Graph :=
  g.modify g.exit fun s => owners.foldl State.addOwner { s with accepting := true }

/-- The fragment whose exit neither accepts nor has owners. -/
def demoteExit (g : Graph) : Graph := g.modify g.exit State.demote

/-! ## Fragments -/

/-- The fragment that consumes one member of a class. -/
def symbol (next : Nat) (members : CharClass) : Graph :=
  (empty.add { id := next } |>.add { id := next + 1 }).connect 0 (.oneOf members) 1

/-- The fragment that runs through `g` and then through `h`. -/
def chain (g h : Graph) : Graph :=
  if g.isEmpty then h else (g.append h).connectEpsilon g.exit g.size

/-- The number of states of some fragments. -/
def totalSize : List Graph → Nat
  | [] => 0
  | part :: rest => part.size + totalSize rest

/-- The indices of the exits of some fragments laid out one after the other from index `offset`. -/
def exitsFrom (offset : Nat) : List Graph → List Nat
  | [] => []
  | part :: rest => (offset + part.exit) :: exitsFrom (offset + part.size) rest

/-- The fragment that runs through one of the parts, between a new start and a new exit. -/
def alternatives (startId exitId : Nat) (parts : List Graph) : Graph :=
  let entered := parts.foldl (fun g part => (g.append part).connectEpsilon 0 g.size)
    (empty.add { id := startId })
  (exitsFrom 1 parts).foldl (fun g exit => g.connectEpsilon exit entered.size)
    (entered.add { id := exitId })

/-- The fragment that runs through `inner` as often as `times` says, between a new start and a new
exit with the ids `next` and `next + 1`. -/
def wrap (next : Nat) (inner : Graph) (times : Repetition) : Graph :=
  let around := ((empty.add { id := next }).append inner).add { id := next + 1 }
  let innerExit := 1 + inner.exit
  let through := (around.connectEpsilon 0 1).connectEpsilon innerExit around.exit
  let looped := if times = .zeroOrOne then through else through.connectEpsilon innerExit 1
  if times = .oneOrMore then looped else looped.connectEpsilon 0 around.exit

end Graph

end MaximalMunch.Nfa
