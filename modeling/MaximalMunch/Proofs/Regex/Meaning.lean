import MaximalMunch.Proofs.Regex.Building
import MaximalMunch.Proofs.Regex.Shape

/-!
# What compiled patterns mean

The fragment of a pattern leads from its entry to its exit along the words of the pattern, where a
reference stands for the words of the graph that it is resolved to (`compile_spells`). That graph
may have any shape, as long as it has states and its transitions lead to them.
-/

namespace MaximalMunch.Regex

open Nfa (Graph)
open Nfa.Graph (Spells)

/-- The words that lead from the entry of the graph with a name to its exit, none if there is no
such graph. -/
def resolvedLanguage (resolve : String → Option Graph) (name : String) : Language UInt32 :=
  {w | ∃ h, resolve name = some h ∧ h.Path 0 w h.exit}

variable {resolve : String → Option Graph} {pattern : String} {next : Nat} {g : Graph}

/-- A graph with states and transitions in range spells the words that lead through it. -/
theorem spells_of_resolve {name : String} {h : Graph} (hname : resolve name = some h)
    (hsize : 0 < h.size) (hrange : h.InRange) : h.Spells (resolvedLanguage resolve name) where
  size_pos := hsize
  inRange := hrange
  path_iff w := by
    constructor
    · intro p
      exact ⟨h, hname, p⟩
    · rintro ⟨h', hname', p⟩
      obtain rfl := Option.some.inj (hname.symm.trans hname')
      exact p

/-- The fragment of a pattern that compiles has a path from its entry to its exit for each word of
the language of the pattern and for no other word. It has states, its transitions lead to them, none
of them accepts or has owners, and their ids are those that compiling draws, each once. -/
theorem compile_spells
    (hresolve : ∀ name h, resolve name = some h → 0 < h.size ∧ h.InRange)
    (hcompile : compile resolve pattern next = .ok g) :
    ∃ r, parse pattern = .ok r ∧
      (∀ w, g.Path 0 w g.exit ↔ w ∈ r.language (resolvedLanguage resolve)) ∧
      0 < g.size ∧ g.InRange ∧
      (∀ s ∈ g.states, s.accepting = false ∧ s.owners = []) ∧
      (compileM resolve pattern).run next = .ok g (next + g.size) ∧
      (g.states.toList.map (·.id)).Perm (List.range' next g.size) := by
  have hdrawn : (compileM resolve pattern).run next = .ok g (next + g.size) := by
    rw [run_compileM, hcompile]
  obtain ⟨r, hparse, hknown, rfl⟩ := compile_eq_ok_iff.1 hcompile
  have hwell := wellFormed_of_parse hparse
  have hnamed : ∀ name ∈ r.references,
      ((resolve name).getD .empty).Spells (resolvedLanguage resolve name) := by
    intro name hname
    obtain ⟨h, hh⟩ := Option.isSome_iff_exists.1 (hknown name hname)
    obtain ⟨hsize, hrange⟩ := hresolve name h hh
    rw [hh]
    exact spells_of_resolve hh hsize hrange
  have hspells := spells_fragment r next hwell hnamed
  refine ⟨r, hparse, hspells.path_iff, hspells.size_pos, hspells.inRange, fun s hs => ?_, hdrawn,
    ids_fragment r next⟩
  obtain ⟨i, hi⟩ := Array.getElem?_of_mem hs
  exact Prod.mk.inj (quiet_fragment hwell next i (s.accepting, s.owners)
    (Option.map_eq_some_iff.2 ⟨s, hi, rfl⟩))

/-- A group that is repeated, with a name for a graph that leads back to its own entry. -/
theorem compile_spells_repeated :
    let named : Graph := (Graph.symbol 0 (.single 'a')).connectEpsilon 1 0
    ∃ g, compile (fun _ => some named) "({x}b)*" 5 = .ok g ∧ g.Path 0 [] g.exit ∧
      g.Path 0 [0x61, 0x61, 0x62] g.exit := by
  intro named
  have hresolve : ∀ (_ : String) h, some named = some h → 0 < h.size ∧ h.InRange := by
    intro _ h hh
    obtain rfl := Option.some.inj hh
    exact ⟨by decide, Nfa.Graph.inRange_of_forall_mem (by decide)⟩
  -- the graph for the name goes back from its exit, so it spells `aa`
  have hword : [0x61, 0x61] ∈ resolvedLanguage (fun _ => some named) "x" := by
    have hstep : named.Edge 0 (.oneOf (.single 'a')) 1 := .head _
    have hback : named.Edge 1 .epsilon 0 := .head _
    exact ⟨named, rfl, .consume hstep (by decide)
      (.epsilon hback (.consume hstep (by decide) (.nil 1)))⟩
  have hparse : parse "({x}b)*" =
      .ok (.repeated .zeroOrMore (.group (.concat [.reference "x", .literal 'b']))) := by rfl
  obtain ⟨g, hg⟩ : ∃ g, compile (fun _ => some named) "({x}b)*" 5 = .ok g :=
    ⟨_, compile_eq_ok_iff.2 ⟨_, hparse, fun _ _ => rfl, rfl⟩⟩
  obtain ⟨r, hr, hpath, -⟩ := compile_spells hresolve hg
  obtain rfl := Except.ok.inj (hparse.symm.trans hr)
  refine ⟨g, hg, (hpath _).2 (Language.nil_mem_kstar _), (hpath _).2 (Language.mem_kstar.2 ?_)⟩
  refine ⟨[[0x61, 0x61] ++ ([0x62] ++ [])], rfl, List.forall_mem_singleton.2 ?_⟩
  exact Language.append_mem_mul hword (Language.append_mem_mul rfl rfl)

end MaximalMunch.Regex
