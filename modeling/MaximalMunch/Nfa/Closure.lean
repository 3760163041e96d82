import MaximalMunch.Nfa.Basic

/-!
# Epsilon closure

The states that can be reached without consuming anything. The search marks states in an array and
keeps the marked states it has yet to expand on a stack; a state is pushed when it is marked, so the
search ends after at most as many steps as there are states.
-/

namespace MaximalMunch.Nfa.Graph

/-- The targets of the transitions from a state that consume nothing. -/
def epsilonTargets (g : Graph) (i : Nat) : List Nat :=
  (g.transitions i).filterMap fun t =>
    match t.label with
    | .epsilon => some t.target
    | .oneOf _ => none

/-- Marks the states that are not marked yet, and pushes each of them. -/
def mark (marked : Array Bool) (stack : List Nat) : List Nat → Array Bool × List Nat
  | [] => (marked, stack)
  | i :: rest =>
    if marked[i]? = some false then mark (marked.setIfInBounds i true) (i :: stack) rest
    else mark marked stack rest

/-- Expands the states on the stack, at most `fuel` of them. -/
def spread (g : Graph) : Nat → Array Bool → List Nat → Array Bool
  | 0, marked, _ => marked
  | _ + 1, marked, [] => marked
  | fuel + 1, marked, i :: stack =>
    let (marked, stack) := mark marked stack (g.epsilonTargets i)
    spread g fuel marked stack

/-- The states reachable from `seeds` without consuming anything, in increasing order. -/
def closure (g : Graph) (seeds : List Nat) : List Nat :=
  let (marked, stack) := mark (Array.replicate g.size false) [] seeds
  let marked := spread g g.size marked stack
  (List.range g.size).filter fun i => marked[i]? = some true

end MaximalMunch.Nfa.Graph
