import MaximalMunch.Proofs.Definition.Master
import MaximalMunch.Proofs.Dfa.Edges
import MaximalMunch.Proofs.Tables.Packing

/-!
# Tables of deterministic automata

What comes out of subset construction fits into tables, if its states, its candidates and the
classes of its code points can be counted in 32 bits (`packable_determinize`). The classes can
whenever the automaton moves on Unicode code points only (`classCount_lt`), and so for every
definition. Then scanning with the tables is scanning with the automaton (`refines_ofDfa`).
-/

namespace MaximalMunch

open Nfa (Graph)

/-- No more atoms than code points up to the end of the last span. -/
theorem Span.length_atoms_le {m : UInt32} {spans : List Span}
    (h : ∀ s ∈ spans, s.lo ≤ s.hi ∧ s.hi ≤ m) : (atoms spans).length ≤ m.toNat + 1 := by
  have hincreasing : ((atoms spans).map (·.lo.toNat)).Pairwise (· < ·) := by
    rw [List.pairwise_map]
    refine (pairwise_atoms spans).imp_of_mem fun {a b} ha _ hab => ?_
    exact Nat.lt_of_le_of_lt (proper_of_mem_atoms ha) hab
  have hsub : (atoms spans).map (·.lo.toNat) ⊆ List.range (m.toNat + 1) := by
    intro n hn
    obtain ⟨a, ha, rfl⟩ := List.mem_map.1 hn
    have := proper_of_mem_atoms ha
    have := UInt32.le_iff_toNat_le.1 (hi_le_of_mem_atoms h ha)
    exact List.mem_range.2 (by omega)
  have hle := (List.subperm_of_subset (hincreasing.imp Nat.ne_of_lt) hsub).length_le
  rwa [List.length_map, List.length_range] at hle

namespace Tables

/-- The tables do what the automaton does: they lead from every number to the same state by every
character, they report the same, and so scanning with either gives the same. -/
structure Refines (t : Tables) (d : Dfa) : Prop where
  start : t.automaton.start = d.automaton.start
  step : ∀ q c, t.automaton.next q c = d.automaton.next q c
  accepting : ∀ q, t.automaton.tokenOf q = d.automaton.tokenOf q
  longest : ∀ text offset, t.automaton.longest? text offset = d.automaton.longest? text offset
  tokenize : ∀ text, t.automaton.tokenize text = d.automaton.tokenize text
  scan : ∀ skip text, t.automaton.scan skip text = d.automaton.scan skip text

/-- The tables of an automaton that can be packed do what the automaton does. -/
theorem refines_of_packable {d : Dfa} (hd : d.Packable) : (ofDfa d).Refines d := by
  have h := automaton_ofDfa hd
  constructor
  all_goals
    intros
    rw [h]

/-- What holds of the spans of all edges holds of the spans that are cut into atoms. -/
theorem forall_mem_spans {d : Dfa} {P : Span → Prop}
    (h : ∀ s ∈ d.states, ∀ e ∈ s.edges, P e.toSpan) :
    ∀ span ∈ d.states.toList.flatMap fun s => s.edges.map (·.toSpan), P span := by
  intro span hspan
  obtain ⟨s, hs, hmem⟩ := List.mem_flatMap.1 hspan
  obtain ⟨e, he, rfl⟩ := List.mem_map.1 hmem
  exact h s (Array.mem_toList_iff.1 hs) e he

/-- Code points that move only up to the last Unicode code point fall into few classes. -/
theorem classCount_lt {d : Dfa}
    (h : ∀ s ∈ d.states, ∀ e ∈ s.edges, e.lo ≤ e.hi ∧ e.hi ≤ maxChar) :
    classCount d < UInt32.size := by
  have hatoms : (atoms d).length ≤ maxChar.toNat + 1 := Span.length_atoms_le (forall_mem_spans h)
  have hcount : classCount d ≤ 1 + (atoms d).length := Numbering.size_numberAll_le _ _
  have hmax : maxChar.toNat + 2 < UInt32.size := by decide
  omega

/-- A deterministic automaton made from a graph fits into tables. -/
theorem packable_determinize {g : Graph} {names : Array String}
    (hsize : (g.determinize names).size < noEntry.toNat)
    (hcandidates : ∀ s ∈ (g.determinize names).states, ∀ i ∈ s.candidates, i < noEntry.toNat)
    (hclasses : g.Unicode ∨ classCount (g.determinize names) < UInt32.size) :
    (g.determinize names).Packable where
  states := hsize
  targets _ hs _ he := (Graph.exists_arc_of_mem_edges hs he).1
  candidates := hcandidates
  classes := by
    rcases hclasses with hg | hclasses
    · refine classCount_lt fun s hs e he => ⟨?_, hg.hi_le_maxChar hs he⟩
      exact UInt32.le_iff_toNat_le.2 (Graph.exists_edge_of_mem_edges hs he).1
    · exact hclasses

/-- A deterministic automaton with fewer states and candidates than numbers of 32 bits short of
`noEntry` is refined by its tables. The number of classes is kept in 32 bits as well; it fits if the
graph consumes Unicode code points only, and so it does for the master automaton of any
definition. -/
theorem refines_ofDfa :
    (∀ (g : Graph) (names : Array String),
      let d := g.determinize names
      d.size < noEntry.toNat → (∀ s ∈ d.states, ∀ i ∈ s.candidates, i < noEntry.toNat) →
        (g.Unicode ∨ classCount d < UInt32.size) → (ofDfa d).Refines d) ∧
    ∀ calls : List Builder.Call,
      let d := (Builder.after calls).finish.master
      d.size < noEntry.toNat → (∀ s ∈ d.states, ∀ i ∈ s.candidates, i < noEntry.toNat) →
        (ofDfa d).Refines d := by
  constructor
  · intro g names d hsize hcandidates hclasses
    exact refines_of_packable (packable_determinize hsize hcandidates hclasses)
  · intro calls d hsize hcandidates
    have hunicode := (Builder.represents_after calls).unicode_masterGraph
    exact refines_of_packable (packable_determinize hsize hcandidates (Or.inl hunicode))

/-- The tables of a graph that consumes all numbers from a letter on, and the tables of a definition
of numbers. -/
theorem refines_ofDfa_number :
    (let g := (Graph.symbol 0 (.ofSpans [⟨0x61, 0xFFFFFFFF⟩])).acceptAtExit [0]
     let d := g.determinize #["high"]
     classCount d < UInt32.size ∧ d.size < noEntry.toNat ∧
      (∀ s ∈ d.states, ∀ i ∈ s.candidates, i < noEntry.toNat) ∧ (ofDfa d).Refines d) ∧
    let d := (Builder.after
      [.declare "digit" "[0-9]" true 1, .declare "number" "{digit}+" false 2]).finish.master
    d.size < noEntry.toNat ∧ (∀ s ∈ d.states, ∀ i ∈ s.candidates, i < noEntry.toNat) ∧
      (ofDfa d).Refines d := by
  -- the candidates of all states, in a list that can be looked through
  have hlt : ∀ {d : Dfa} {l : List (List Nat)}, d.states.toList.map (·.candidates) = l →
      (∀ c ∈ l, ∀ i ∈ c, i < noEntry.toNat) →
        ∀ s ∈ d.states, ∀ i ∈ s.candidates, i < noEntry.toNat := by
    rintro d l rfl h s hs
    exact h _ (List.mem_map.2 ⟨s, Array.mem_toList_iff.2 hs, rfl⟩)
  constructor
  · intro g d
    have hclasses : classCount d < UInt32.size := by dsimp only [d, g]; decide +kernel
    have hsize : d.size < noEntry.toNat := by dsimp only [d, g]; decide +kernel
    have hcandidates : d.states.toList.map (·.candidates) = [[], [0]] := by dsimp only [d, g]; decide +kernel
    have hcandidates' := hlt hcandidates (by decide)
    exact ⟨hclasses, hsize, hcandidates',
      refines_ofDfa.1 g _ hsize hcandidates' (Or.inr hclasses)⟩
  · intro d
    have hcomputed : d.size < noEntry.toNat ∧
        d.states.toList.map (·.candidates) = [[], [1]] := by
      simp only [d, Builder.after, List.foldl_cons, List.foldl_nil, Builder.attempt, Builder.perform,
        Builder.declare, TokenAutomaton.ofPattern, Regex.compile, Regex.parse_digits]
      decide +kernel
    obtain ⟨hsize, hcandidates⟩ := hcomputed
    have hcandidates' := hlt hcandidates (by decide)
    exact ⟨hsize, hcandidates', refines_ofDfa.2 _ hsize hcandidates'⟩

end Tables

end MaximalMunch
