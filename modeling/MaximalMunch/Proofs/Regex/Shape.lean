import MaximalMunch.Proofs.Nfa.Ids
import MaximalMunch.Proofs.Nfa.Productive
import MaximalMunch.Proofs.Nfa.Sealed
import MaximalMunch.Proofs.Regex.Compile

/-!
# The shape of fragments

The fragment of a pattern is sealed and has no dead ends, if the graphs of the names it refers to
are so (`sealed_fragment`, `productive_fragment`). Its ids are the numbers from `next` on, as many
as it has states and each once, whatever the referenced graphs look like (`ids_fragment`).
-/

namespace MaximalMunch.Regex

open Nfa (Graph)
open Nfa.Graph (Productive Sealed ids_alternatives ids_clearAcceptance ids_copy ids_foldl_chain
  ids_symbol ids_wrap size_alternatives size_clearAcceptance size_copy size_empty size_foldl_chain
  size_symbol size_wrap totalSize totalSize_cons)

variable {named : String → Graph}

/-- Patterns are compiled to sealed graphs. -/
theorem constructive_sealed : Constructive Sealed where
  symbol next members _ _ := .symbol next members
  chain hg hh := hg.chain hh
  alternatives startId exitId _ hparts := .alternatives hparts startId exitId
  wrap next times hg := hg.wrap next times

/-- The fragment of a pattern is sealed. -/
theorem sealed_fragment {r : Regex} (h : r.WellFormed) (next : Nat)
    (hnamed : ∀ name ∈ r.references, (named name).Sealed) : (r.fragment named next).Sealed :=
  fragment_of_constructive constructive_sealed r next h fun name hname next =>
    ((hnamed name hname).copy next).clearAcceptance

/-- Patterns are compiled to graphs without dead ends. -/
theorem constructive_productive : Constructive Productive where
  symbol next _ _ hmember := .symbol hmember next
  chain hg hh := hg.chain hh
  alternatives startId exitId hne hparts := .alternatives hne hparts startId exitId
  wrap next times hg := hg.wrap next times

/-- The fragment of a pattern has no dead ends. -/
theorem productive_fragment {r : Regex} (h : r.WellFormed) (next : Nat)
    (hnamed : ∀ name ∈ r.references, (named name).Productive) :
    (r.fragment named next).Productive :=
  fragment_of_constructive constructive_productive r next h fun name hname next =>
    ((hnamed name hname).copy next).clearAcceptance

mutual

/-- The ids of a fragment are the next ones. -/
theorem ids_fragment : ∀ (r : Regex) (next : Nat),
    (r.fragment named next).ids.Perm (List.range' next (r.fragment named next).size)
  | .literal c, next => by
    rw [fragment, ids_symbol, size_symbol]
  | .oneOf members, next => by
    rw [fragment, ids_symbol, size_symbol]
  | .concat items, next => by
    rw [fragment, ids_foldl_chain, size_foldl_chain, size_empty, Nat.zero_add]
    exact ids_fragments items next
  | .alternate branches, next => by
    rw [fragment, ids_alternatives, size_alternatives, List.range'_succ, List.range'_1_concat]
    exact .cons next ((ids_fragments branches (next + 1)).append_right _)
  | .repeated times inner, next => by
    -- the ids of the ends come behind those of the repeated fragment
    rw [fragment, ids_wrap, size_wrap, ← List.range'_append_1]
    exact List.perm_middle.symm.trans ((ids_fragment inner next).append_right _)
  | .group inner, next => by
    rw [fragment]
    exact ids_fragment inner next
  | .reference name, next => by
    rw [fragment, ids_clearAcceptance, ids_copy, size_clearAcceptance, size_copy]

/-- So are those of several fragments together. -/
theorem ids_fragments : ∀ (rs : List Regex) (next : Nat),
    ((fragments named next rs).flatMap Graph.ids).Perm
      (List.range' next (totalSize (fragments named next rs)))
  | [], next => by
    rw [fragments]
    rfl
  | r :: rest, next => by
    rw [fragments, List.flatMap_cons, totalSize_cons, ← List.range'_append_1]
    exact (ids_fragment r next).append (ids_fragments rest _)

end

end MaximalMunch.Regex
