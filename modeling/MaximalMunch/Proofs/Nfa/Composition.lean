import MaximalMunch.Proofs.Nfa.Alternatives

/-!
# Properties of composed graphs

A property that holds of the empty graph, and that new states, new epsilon transitions and appending
keep, is kept by all ways of composing fragments (`Graph.Compositional`).
-/

namespace MaximalMunch.Nfa.Graph

/-- The steps in which graphs are composed keep a property. -/
structure Compositional (P : Graph → Prop) : Prop where
  empty : P .empty
  add : ∀ {g : Graph} (id : Nat), P g → P (g.add { id })
  connectEpsilon : ∀ {g : Graph} (source target : Nat), P g → P (g.connectEpsilon source target)
  append : ∀ {g h : Graph}, P g → P h → P (g.append h)

namespace Compositional

variable {P : Graph → Prop} {g h : Graph} {parts : List Graph}

/-- What is kept by the basic operations is kept by chaining. -/
theorem chain (C : Compositional P) (hg : P g) (hh : P h) : P (g.chain h) := by
  unfold Graph.chain
  split
  · exact hh
  · exact C.connectEpsilon _ _ (C.append hg hh)

/-- So it is by putting branches under a start. -/
theorem branch (C : Compositional P) : ∀ {g : Graph}, P g → (∀ part ∈ parts, P part) →
    P (g.branch parts) := by
  induction parts with
  | nil => intro g hg _; exact hg
  | cons first rest ih =>
    intro g hg hparts
    obtain ⟨hfirst, hrest⟩ := List.forall_mem_cons.1 hparts
    exact ih (C.connectEpsilon _ _ (C.append hg hfirst)) hrest

/-- So it is by connecting several states with one. -/
theorem connectAll (C : Compositional P) {target : Nat} {sources : List Nat} : ∀ {g : Graph}, P g →
    P (g.connectAll target sources) := by
  induction sources with
  | nil => intro g hg; exact hg
  | cons source rest ih => intro g hg; exact ih (C.connectEpsilon source target hg)

/-- So it is by joining alternatives. -/
theorem alternatives (C : Compositional P) (hparts : ∀ part ∈ parts, P part)
    (startId exitId : Nat) : P (alternatives startId exitId parts) := by
  rw [alternatives_eq]
  exact C.connectAll (C.add exitId (C.branch (C.add startId C.empty) hparts))

/-- So it is by repetition. -/
theorem wrap (C : Compositional P) (hg : P g) (next : Nat) (times : Repetition) :
    P (wrap next g times) := by
  have haround : P (surround next g) := C.add (next + 1) (C.append (C.add next C.empty) hg)
  have hthrough := C.connectEpsilon (1 + g.exit) (g.size + 1) (C.connectEpsilon 0 1 haround)
  rw [wrap_eq]
  split
  · split
    · exact hthrough
    · exact C.connectEpsilon _ _ hthrough
  · split
    · exact C.connectEpsilon _ _ hthrough
    · exact C.connectEpsilon _ _ (C.connectEpsilon _ _ hthrough)

end Compositional

end MaximalMunch.Nfa.Graph
