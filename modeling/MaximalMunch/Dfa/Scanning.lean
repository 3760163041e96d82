import MaximalMunch.Dfa.Basic
import MaximalMunch.Scan.Automaton

/-!
# Scanning with a deterministic automaton

A `Dfa` as an `Automaton`: it steps along its edges and reports the winning token of a state.
-/

namespace MaximalMunch.Dfa

/-- The automaton of a `Dfa`. -/
def automaton (d : Dfa) : Automaton Nat where
  start := d.start
  next := d.step
  tokenOf := d.accepting

end MaximalMunch.Dfa
