import MaximalMunch.Nfa.Basic
import MaximalMunch.Regex.Reader

/-!
# From patterns to automata

`Regex.fragment` builds the automaton of a pattern: every part of the tree becomes a fragment with
one entry and one exit, and no state accepts yet. The ids of its states are the numbers from `next`
up to `next + size`, each once, so whoever builds several fragments goes on with the sum.

A reference becomes a copy of the fragment it names. `Regex.compile` makes sure that every name is
known before it builds anything.
-/

namespace MaximalMunch

open Nfa (Graph)

namespace Regex

mutual

/-- The fragment of a pattern, with ids from `next` on. -/
def fragment (named : String → Graph) (next : Nat) : Regex → Graph
  | .literal c => Graph.symbol next (.single c)
  | .oneOf members => Graph.symbol next members
  | .concat items => (fragments named next items).foldl Graph.chain .empty
  | .alternate branches =>
    let parts := fragments named (next + 1) branches
    Graph.alternatives next (next + 1 + Graph.totalSize parts) parts
  | .repeated times inner =>
    let g := fragment named next inner
    Graph.wrap (next + g.size) g times
  | .group inner => fragment named next inner
  | .reference name => ((named name).copy next).clearAcceptance

/-- The fragments of some patterns; each goes on with the ids where the one before it ended. -/
def fragments (named : String → Graph) (next : Nat) : List Regex → List Graph
  | [] => []
  | r :: rest =>
    let g := fragment named next r
    g :: fragments named (next + g.size) rest

end

/-- Why a pattern has no automaton. -/
inductive CompileError where
  /-- The text is not a pattern. -/
  | malformed (e : SyntaxError)
  /-- The pattern refers to a name that is not known. -/
  | unresolvedReference (name : String)
deriving DecidableEq, Repr

/-- The error in words. -/
def CompileError.message : CompileError → String
  | .malformed e => e.message
  | .unresolvedReference name => s!"reference to undefined token \"{name}\""

/-- The fragment of a pattern, with ids from `next` on. It fails if the text is not a pattern, or
else at the leftmost name that `resolve` does not know. -/
def compile (resolve : String → Option Graph) (pattern : String) (next : Nat) :
    Except CompileError Graph :=
  match parse pattern with
  | .error e => .error (.malformed e)
  | .ok r =>
    match r.references.find? fun name => (resolve name).isNone with
    | some name => .error (.unresolvedReference name)
    | none => .ok (r.fragment (fun name => (resolve name).getD .empty) next)

end Regex

end MaximalMunch
