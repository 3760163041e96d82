import MaximalMunch.Dfa.Listing
import MaximalMunch.Dfa.Subsets

/-!
# Events

What happens while a definition is built, as records for a log: declarations, determinizations, and
at the end a summary with its warnings and the listing of the master automaton.
-/

namespace MaximalMunch

/-- How much an event matters. -/
inductive Event.Level where
  | debug
  | info
  | warn
deriving DecidableEq, Repr

/-- The name of a level in a log. -/
def Event.Level.name : Event.Level → String
  | .debug => "DEBUG"
  | .info => "INFO"
  | .warn => "WARN"

/-- The numbers that sum up a definition. -/
structure Event.Summary where
  tokens : Nat
  /-- The tokens that are not internal. -/
  emitted : Nat
  /-- The states made for the tokens. -/
  tokenStates : Nat
  nfaStates : Nat
  dfaStates : Nat
deriving DecidableEq, Repr

/-- Something that happens while a definition is built. -/
inductive Event where
  /-- A name is declared for the first time. -/
  | declared (line : Nat) (name : String) (internal : Bool) (pattern : String)
  /-- A further pattern is declared for a name. -/
  | extended (line : Nat) (name pattern : String)
  /-- A graph is made deterministic. -/
  | determinized (nfaStates dfaStates : Nat)
  /-- The definition is complete. -/
  | completed (summary : Event.Summary)
  /-- All tokens are internal. -/
  | nothingEmitted
  /-- A token matches the empty text. -/
  | matchesEmpty (name : String)
  /-- The master automaton is ready. -/
  | listed (master : Dfa)

namespace Event

/-- The level at which an event is logged. -/
def level : Event → Level
  | .declared .. => .debug
  | .extended .. => .debug
  | .determinized .. => .debug
  | .completed _ => .info
  | .nothingEmitted => .warn
  | .matchesEmpty _ => .warn
  | .listed _ => .debug

/-- The event in words. -/
def message : Event → String
  | .declared line name internal pattern =>
    let mark := if internal then " (internal)" else ""
    s!"[definition] line {line}: `{name}`{mark} = /{pattern}/"
  | .extended line name pattern => s!"[definition] line {line}: `{name}` += /{pattern}/"
  | .determinized nfaStates dfaStates =>
    s!"[dfa] {nfaStates} NFA states -> {dfaStates} DFA states"
  | .completed s =>
    s!"[definition] {s.tokens} tokens ({s.emitted} emitted, {s.tokenStates} token NFA states), "
      ++ s!"master NFA {s.nfaStates} states -> DFA {s.dfaStates} states"
  | .nothingEmitted => "[definition] no non-internal tokens; the master DFA matches nothing"
  | .matchesEmpty name =>
    s!"[definition] token `{name}` matches the empty string; the scanner never emits empty tokens"
  | .listed master => "[definition] master DFA:\n" ++ master.listing

/-- The record of an event in a log. -/
def record (e : Event) : String :=
  e.level.name ++ " " ++ e.message

/-- What there is to say about making a graph deterministic; nothing if it has no states. -/
def ofDeterminization (g : Nfa.Graph) (d : Dfa) : List Event :=
  if g.isEmpty then [] else [.determinized g.size d.size]

end Event

end MaximalMunch
