import MaximalMunch.Definition.Event
import MaximalMunch.Definition.Line
import MaximalMunch.Definition.TokenAutomaton

/-!
# Building definitions

A `Builder` holds the tokens declared so far and a map from their names to their indices.
`Builder.declare` compiles one pattern against them: a new name becomes a token, a known name gets
the pattern as a further alternative. A declaration that fails has no builder as its result, so the
one before it goes on unchanged.

`Builder.finish` joins all tokens that are not internal under one start state and makes the result
deterministic: the master automaton of the definition.
-/

namespace MaximalMunch

open Nfa (Graph)

/-- A map from names to indices. -/
structure NameMap where
  /-- The names with their indices. Of several entries for a name the first one counts. -/
  entries : List (String × Nat)

namespace NameMap

/-- The map without names. -/
def empty : NameMap := ⟨[]⟩

/-- The index of a name. -/
def lookup (m : NameMap) (name : String) : Option Nat := m.entries.lookup name

/-- Maps a name to an index. -/
def insert (m : NameMap) (name : String) (index : Nat) : NameMap := ⟨(name, index) :: m.entries⟩

end NameMap

/-- The tokens declared so far, in order. -/
structure Builder where
  tokens : Array TokenAutomaton
  /-- The indices of the tokens by their names. -/
  byName : NameMap
  /-- The ids used by the graphs of the tokens. -/
  issued : Nat
  /-- What has happened so far. -/
  journal : Array Event

/-- The tokens of a finished definition and the automaton that recognises them. -/
structure Definition where
  /-- All tokens in the order of declaration, internal ones included. -/
  tokens : Array TokenAutomaton
  /-- The indices of the tokens by their names. -/
  byName : NameMap
  /-- The graph that joins the tokens that are not internal. -/
  masterNfa : TokenAutomaton
  master : Dfa
  /-- What has happened while the definition was built. -/
  journal : Array Event

namespace Builder

/-- The builder without tokens. -/
def empty : Builder := ⟨#[], .empty, 0, #[]⟩

/-- The graph that a reference to a name stands for. -/
def resolve (b : Builder) (name : String) : Option Graph :=
  (b.byName.lookup name).bind fun i => b.tokens[i]?.map (·.graph)

/-- The builder with one event more in its journal. -/
def log (b : Builder) (e : Event) : Builder :=
  { b with journal := b.journal.push e }

/-- Adds the compiled pattern of a new name. -/
def addToken (b : Builder) (name : String) (t : TokenAutomaton) : Builder :=
  { b with
    tokens := b.tokens.push t
    byName := b.byName.insert name b.tokens.size
    issued := b.issued + t.graph.size }

/-- Adds the compiled pattern of the token at index `i`, with a new entry and a new exit. -/
def extendToken (b : Builder) (i : Nat) (t : TokenAutomaton) : Builder :=
  let issued := b.issued + t.graph.size
  { b with tokens := b.tokens.modify i (·.alternate t.graph issued), issued := issued + 2 }

/-- Declares a pattern for a name, on the line with number `line`. For a known name the token stays
internal or not as it was first declared. -/
def declare (b : Builder) (name pattern : String) (internal : Bool) (line : Nat) :
    Except Definition.Error Builder := do
  let known := b.byName.lookup name
  let index := known.getD b.tokens.size
  let token ← (TokenAutomaton.ofPattern b.resolve b.issued name index pattern internal).mapError
    fun e => ⟨line, .ofCompileError e⟩
  match known with
  | some i => return (b.extendToken i token).log (.extended line name pattern)
  | none => return (b.addToken name token).log (.declared line name internal pattern)

/-- Takes a line of a definition. -/
def line (b : Builder) (text : String) (number : Nat) : Except Definition.Error Builder := do
  match ← Declaration.ofLine? text number with
  | some d => b.declare d.name d.pattern d.internal number
  | none => return b

/-! ## The master automaton -/

/-- Adds a copy of a token that is reported, entered from the state at index 0. -/
def joinToken (joined : Graph) (t : TokenAutomaton) : Graph :=
  let part := (t.graph.copy joined.size).acceptAtExit [t.index]
  (joined.append part).connectEpsilon 0 joined.size

/-- The tokens that are not internal. -/
def emitted (b : Builder) : List TokenAutomaton :=
  b.tokens.toList.filter (!·.internal)

/-- The graph that joins the tokens that are not internal, with ids equal to indices. -/
def masterGraph (b : Builder) : Graph :=
  b.emitted.foldl joinToken (Graph.empty.add { id := 0 })

/-- The names of the tokens in the order of declaration. -/
def names (b : Builder) : Array String :=
  b.tokens.map fun t => t.name.getD ""

/-- What there is to say about a finished definition with the given master automaton. -/
def closingEvents (b : Builder) (master : Dfa) : List Event :=
  let graph := b.masterGraph
  let emitted := b.emitted.length
  let summary := ⟨b.tokens.size, emitted, b.issued, graph.size, master.size⟩
  let candidates := (master.states[master.start]?.map Dfa.State.candidates).getD []
  Event.ofDeterminization graph master
    ++ [.completed summary]
    ++ (if emitted = 0 then [.nothingEmitted] else [])
    ++ candidates.map (fun t => .matchesEmpty (b.names.getD t ""))
    ++ [.listed master]

/-- The definition that consists of the tokens declared so far. -/
def finish (b : Builder) : Definition :=
  let graph := b.masterGraph
  let master := graph.determinize b.names
  ⟨b.tokens, b.byName, .ofGraph none graph, master, b.journal ++ b.closingEvents master⟩

end Builder

/-- The token with a name. -/
def Definition.token? (d : Definition) (name : String) : Option TokenAutomaton := do
  d.tokens[← d.byName.lookup name]?

end MaximalMunch
