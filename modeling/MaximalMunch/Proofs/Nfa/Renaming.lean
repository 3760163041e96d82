import Mathlib.Order.Monotone.Basic
import MaximalMunch.Nfa.Fragment
import MaximalMunch.Proofs.Nfa.Composition

/-!
# Graphs that differ in their owners

`Graph.Renamed f g h` says that `h` has the states and transitions of `g` and that its states accept
for other owners, namely the images of the old ones under `f`. Ids do not matter. Graphs that are
put together from parts with this property have it (`Renamed.append`, `Renamed.alternatives`, ...),
and so have the fragments of a pattern whose references stand for such graphs
(`Regex.renamed_fragment`), wherever their ids begin.
-/

namespace MaximalMunch

/-- What keeps the order keeps the place of an insertion. -/
theorem Ascending.map_insert {f : Nat → Nat} (hf : StrictMono f) (n : Nat) (ns : List Nat) :
    (insert n ns).map f = insert (f n) (ns.map f) := by
  induction ns with
  | nil => rfl
  | cons m rest ih =>
    simp only [insert, List.map_cons, hf.lt_iff_lt, hf.injective.eq_iff]
    split_ifs
    · rfl
    · rfl
    · rw [List.map_cons, ih]

/-- A renaming that keeps the order of owners may come before or after they are merged into a list.
-/
theorem Ascending.map_foldl_insert {f : Nat → Nat} (hf : StrictMono f) (owners : List Nat) :
    ∀ ns : List Nat, (owners.foldl (fun os o => insert o os) ns).map f =
      (owners.map f).foldl (fun os o => insert o os) (ns.map f) := by
  induction owners with
  | nil => intro ns; rfl
  | cons o rest ih => intro ns; rw [List.foldl_cons, ih, map_insert hf, List.map_cons,
      List.foldl_cons]

namespace Nfa.Graph

/-- The graph `h` has the states of `g` with the owners renamed by `f`. -/
structure Renamed (f : Nat → Nat) (g h : Graph) : Prop where
  size_eq : h.size = g.size
  transitions_eq : ∀ i, h.transitions i = g.transitions i
  marks_eq : ∀ i, h.marks i = (g.marks i).map fun m => (m.1, m.2.map f)

namespace Renamed

variable {f : Nat → Nat} {g g' h h' : Graph} {parts parts' : List Graph}

/-- The exits are in the same place. -/
theorem exit_eq (G : Renamed f g g') : g'.exit = g.exit := exit_congr G.size_eq

/-- Both graphs are empty, or none is. -/
theorem isEmpty_eq (G : Renamed f g g') : g'.isEmpty = g.isEmpty := by
  rw [Bool.eq_iff_iff, isEmpty_iff, isEmpty_iff, G.size_eq]

/-! ## Putting graphs together -/

theorem empty : Renamed f .empty .empty where
  size_eq := rfl
  transitions_eq _ := rfl
  marks_eq i := by
    rw [marks_eq_none_iff.2 (Nat.zero_le i)]
    rfl

/-- A further state that does not accept may have any id. -/
theorem add (G : Renamed f g g') (id id' : Nat) :
    Renamed f (g.add { id }) (g'.add { id := id' }) where
  size_eq := by rw [size_add, size_add, G.size_eq]
  transitions_eq i := by rw [transitions_add, transitions_add, G.size_eq, G.transitions_eq]
  marks_eq i := by
    rw [marks_add, marks_add, G.size_eq, G.marks_eq]
    split <;> rfl

/-- A further transition keeps graphs alike. -/
theorem connect (G : Renamed f g g') (source : Nat) (l : Label) (target : Nat) :
    Renamed f (g.connect source l target) (g'.connect source l target) where
  size_eq := by rw [size_connect, size_connect, G.size_eq]
  transitions_eq i := by
    by_cases hs : source < g.size
    · rw [transitions_connect hs, transitions_connect (G.size_eq ▸ hs), G.transitions_eq]
    · -- there is no state from which to lead anywhere
      have hout : ∀ {k : Graph}, k.size = g.size →
          (k.connect source l target).transitions i = k.transitions i := by
        intro k hk
        rw [Graph.connect, modify, transitions, Array.getElem?_modify, transitions]
        split
        · rename_i hi
          rw [← hi, Array.getElem?_eq_none (by rw [size] at hk; omega)]
          rfl
        · rfl
      rw [hout rfl, hout G.size_eq, G.transitions_eq]
  marks_eq i := by rw [marks_connect, marks_connect, G.marks_eq]

theorem connectEpsilon (G : Renamed f g g') (source target : Nat) :
    Renamed f (g.connectEpsilon source target) (g'.connectEpsilon source target) :=
  G.connect source .epsilon target

/-- Graphs that are alike can be put behind graphs that are alike. -/
theorem append (G : Renamed f g g') (H : Renamed f h h') :
    Renamed f (g.append h) (g'.append h') where
  size_eq := by rw [size_append, size_append, G.size_eq, H.size_eq]
  transitions_eq i := by
    rw [transitions_append, transitions_append, G.size_eq, G.transitions_eq, H.transitions_eq]
  marks_eq i := by
    rw [marks_append, marks_append, G.size_eq, G.marks_eq, H.marks_eq]
    split <;> rfl

/-- The graphs of a class differ in nothing but their ids. -/
theorem symbol (next next' : Nat) (members : CharClass) :
    Renamed f (symbol next members) (symbol next' members) :=
  ((empty.add next next').add _ _).connect 0 _ 1

/-- Chains of graphs that are alike are alike. -/
theorem chain (G : Renamed f g g') (H : Renamed f h h') :
    Renamed f (g.chain h) (g'.chain h') := by
  rw [Graph.chain, Graph.chain, G.isEmpty_eq, G.exit_eq, G.size_eq]
  split
  · exact H
  · exact (G.append H).connectEpsilon _ _

/-- So are longer chains. -/
theorem foldl_chain (G : Renamed f g g') (P : List.Forall₂ (Renamed f) parts parts') :
    Renamed f (parts.foldl Graph.chain g) (parts'.foldl Graph.chain g') :=
  List.rel_foldl (fun _ _ G _ _ H => G.chain H) G P

/-- Graphs are alike after branches that are alike are put under their starts. -/
theorem branch (G : Renamed f g g') (P : List.Forall₂ (Renamed f) parts parts') :
    Renamed f (g.branch parts) (g'.branch parts') := by
  refine List.rel_foldl (fun k k' K part part' H => ?_) G P
  rw [K.size_eq]
  exact (K.append H).connectEpsilon 0 k.size

/-- Graphs are alike after the same states are connected with the same target. -/
theorem connectAll {target : Nat} {sources : List Nat} : ∀ {g g' : Graph}, Renamed f g g' →
    Renamed f (g.connectAll target sources) (g'.connectAll target sources) := by
  induction sources with
  | nil => intro g g' G; exact G
  | cons source rest ih => intro g g' G; exact ih (G.connectEpsilon source target)

/-- Lists of graphs that are alike have as many states. -/
theorem totalSize_eq (P : List.Forall₂ (Renamed f) parts parts') :
    totalSize parts' = totalSize parts := by
  induction P with
  | nil => rfl
  | cons hfirst _ ih => rw [totalSize_cons, totalSize_cons, ih, hfirst.size_eq]

/-- Lists of graphs that are alike have their exits in the same places. -/
theorem exitsFrom_eq (P : List.Forall₂ (Renamed f) parts parts') : ∀ offset : Nat,
    exitsFrom offset parts' = exitsFrom offset parts := by
  induction P with
  | nil => intro offset; rfl
  | cons hfirst _ ih =>
    intro offset
    rw [exitsFrom, exitsFrom, ih, hfirst.size_eq, hfirst.exit_eq]

/-- Alternatives of graphs that are alike are alike. -/
theorem alternatives (P : List.Forall₂ (Renamed f) parts parts')
    (startId exitId startId' exitId' : Nat) :
    Renamed f (alternatives startId exitId parts) (alternatives startId' exitId' parts') := by
  rw [alternatives_eq, alternatives_eq, totalSize_eq P, exitsFrom_eq P]
  exact (((empty.add startId startId').branch P).add exitId exitId').connectAll

/-- Repetitions of graphs that are alike are alike. -/
theorem wrap (G : Renamed f g g') (next next' : Nat) (times : Repetition) :
    Renamed f (g.wrap next times) (g'.wrap next' times) := by
  have haround : Renamed f (surround next g) (surround next' g') :=
    ((empty.add next next').append G).add _ _
  have hthrough := (haround.connectEpsilon 0 1).connectEpsilon (1 + g.exit) (g.size + 1)
  rw [wrap_eq, wrap_eq, G.exit_eq, G.size_eq]
  cases times with
  | zeroOrMore => exact (hthrough.connectEpsilon _ _).connectEpsilon _ _
  | oneOrMore => exact hthrough.connectEpsilon _ _
  | zeroOrOne => exact hthrough.connectEpsilon _ _

/-! ## Ids and marks -/

/-- Graphs that have their ids changed stay alike. -/
theorem copy (G : Renamed f g g') (next next' : Nat) :
    Renamed f (g.copy next) (g'.copy next') where
  size_eq := by rw [size_copy, size_copy, G.size_eq]
  transitions_eq i := by rw [transitions_copy, transitions_copy, G.transitions_eq]
  marks_eq i := by rw [marks_copy, marks_copy, G.marks_eq]

/-- Graphs that are alike stay so when nothing accepts any more. -/
theorem clearAcceptance (G : Renamed f g g') :
    Renamed f g.clearAcceptance g'.clearAcceptance where
  size_eq := by rw [size_clearAcceptance, size_clearAcceptance, G.size_eq]
  transitions_eq i := by
    rw [transitions_clearAcceptance, transitions_clearAcceptance, G.transitions_eq]
  marks_eq i := by
    rw [marks_clearAcceptance, marks_clearAcceptance, G.marks_eq, Option.map_map, Option.map_map]
    rfl

/-- Graphs that are alike stay so when their exits are demoted. -/
theorem demoteExit (G : Renamed f g g') : Renamed f g.demoteExit g'.demoteExit where
  size_eq := by rw [size_demoteExit, size_demoteExit, G.size_eq]
  transitions_eq i := by rw [transitions_demoteExit, transitions_demoteExit, G.transitions_eq]
  marks_eq i := by
    rw [marks_demoteExit, marks_demoteExit, G.exit_eq, G.marks_eq]
    split
    · rw [Option.map_map, Option.map_map]
      rfl
    · rfl

/-- Graphs that are alike stay so when their exits accept for owners that are renamed too. -/
theorem acceptAtExit (hf : StrictMono f) (G : Renamed f g g') (owners : List Nat) :
    Renamed f (g.acceptAtExit owners) (g'.acceptAtExit (owners.map f)) where
  size_eq := by rw [size_acceptAtExit, size_acceptAtExit, G.size_eq]
  transitions_eq i := by
    rw [transitions_acceptAtExit, transitions_acceptAtExit, G.transitions_eq]
  marks_eq i := by
    rw [marks_acceptAtExit, marks_acceptAtExit, G.exit_eq, G.marks_eq]
    split
    · simp only [Option.map_map, Function.comp_def, Ascending.map_foldl_insert hf]
    · rfl

end Renamed

end Nfa.Graph

/-! ## Fragments -/

namespace Regex

open Nfa (Graph)
open Nfa.Graph (Renamed)

variable {f : Nat → Nat} {named named' : String → Graph}

mutual

/-- The fragments of a pattern are alike if its references stand for graphs that are. -/
theorem renamed_fragment : ∀ (r : Regex) (next next' : Nat),
    (∀ name ∈ r.references, Renamed f (named name) (named' name)) →
      Renamed f (r.fragment named next) (r.fragment named' next')
  | .literal c, next, next', _ => by
    rw [fragment, fragment]
    exact .symbol next next' _
  | .oneOf members, next, next', _ => by
    rw [fragment, fragment]
    exact .symbol next next' members
  | .concat items, next, next', h => by
    rw [references] at h
    rw [fragment, fragment]
    exact Renamed.empty.foldl_chain (renamed_fragments items next next' h)
  | .alternate branches, next, next', h => by
    rw [references] at h
    rw [fragment, fragment]
    exact .alternatives (renamed_fragments branches _ _ h) _ _ _ _
  | .repeated times inner, next, next', h => by
    rw [references] at h
    rw [fragment, fragment]
    exact (renamed_fragment inner next next' h).wrap _ _ times
  | .group inner, next, next', h => by
    rw [references] at h
    rw [fragment, fragment]
    exact renamed_fragment inner next next' h
  | .reference name, next, next', h => by
    rw [references, List.forall_mem_singleton] at h
    rw [fragment, fragment]
    exact (h.copy next next').clearAcceptance

/-- The same for the patterns of a list. -/
theorem renamed_fragments : ∀ (rs : List Regex) (next next' : Nat),
    (∀ name ∈ referencesOfAll rs, Renamed f (named name) (named' name)) →
      List.Forall₂ (Renamed f) (fragments named next rs) (fragments named' next' rs)
  | [], _, _, _ => by
    rw [fragments, fragments]
    exact .nil
  | r :: rest, next, next', h => by
    rw [referencesOfAll, List.forall_mem_append] at h
    rw [fragments, fragments]
    exact .cons (renamed_fragment r next next' h.1) (renamed_fragments rest _ _ h.2)

end

end Regex

end MaximalMunch
