import MaximalMunch.Proofs.CharClass.Unicode
import MaximalMunch.Proofs.Nfa.Composition

/-!
# Labels of composed graphs

What the transitions of composed graphs consume, the transitions of their parts consume
(`Graph.compositional_labels`). The transitions of a graph that is made from patterns consume
Unicode code points only (`Graph.Unicode`), and renaming and marking keep it so.
-/

namespace MaximalMunch.Nfa.Graph

variable {g h : Graph}

/-- What a transition consumes has a property. -/
def Labels (P : CharClass → Prop) (g : Graph) : Prop :=
  ∀ ⦃i members j⦄, g.Edge i (.oneOf members) j → P members

/-- All transitions consume Unicode code points. -/
def Unicode (g : Graph) : Prop :=
  ∀ ⦃i members j⦄, g.Edge i (.oneOf members) j → members.Unicode

variable {P : CharClass → Prop}

/-- A transition of a connected graph is an old one or the new one. -/
theorem edge_of_edge_connect {source target i j : Nat} {label l : Label}
    (e : (g.connect source label target).Edge i l j) : g.Edge i l j ∨ l = label := by
  by_cases hs : source < g.size
  · rcases (edge_connect hs).1 e with e | ⟨-, hl, -⟩
    · exact Or.inl e
    · exact Or.inr hl
  · -- there is no state to connect from
    have hi : i ≠ source := fun hi => hs (hi ▸ (size_connect source target label ▸ e.lt_size))
    rw [Edge, connect, transitions_modify, if_neg (Ne.symm hi)] at e
    exact Or.inl e

/-- Composing adds no label but epsilon. -/
theorem compositional_labels (P : CharClass → Prop) : Compositional (Labels P) where
  empty i members j e := absurd e not_edge_empty
  add id hg i members j e := hg ((edge_add id).1 e)
  connectEpsilon source target hg i members j e := by
    rcases edge_of_edge_connect e with e | hl
    · exact hg e
    · exact absurd hl (by simp)
  append hg hh i members j e := by
    rcases edge_append.1 e with e | ⟨i', j', -, -, e⟩
    · exact hg e
    · exact hh e

/-- The graph of a class has the class as its only label. -/
theorem Labels.symbol {members : CharClass} (h : P members) (next : Nat) :
    (symbol next members).Labels P := by
  intro i members' j e
  obtain ⟨-, hl, -⟩ := edge_symbol.1 e
  rw [Label.oneOf.inj hl]
  exact h

/-- Ids and marks do not matter. -/
theorem Labels.congr (hg : g.Labels P) (htrans : ∀ i, h.transitions i = g.transitions i) :
    h.Labels P := by
  intro i members j e
  rw [Edge, htrans] at e
  exact hg e

/-- Graphs with Unicode labels make graphs with Unicode labels. -/
theorem compositional_unicode : Compositional Unicode := compositional_labels CharClass.Unicode

/-- The graph of a Unicode class has Unicode labels. -/
theorem Unicode.symbol {members : CharClass} (h : members.Unicode) (next : Nat) :
    (symbol next members).Unicode :=
  Labels.symbol h next

/-- The labels are those of the transitions. -/
theorem Unicode.congr (hg : g.Unicode) (htrans : ∀ i, h.transitions i = g.transitions i) :
    h.Unicode :=
  Labels.congr hg htrans

/-- A copy has the labels of the graph. -/
theorem Unicode.copy (hg : g.Unicode) (next : Nat) : (g.copy next).Unicode :=
  hg.congr fun _ => transitions_copy next

/-- The labels stay when nothing accepts any more. -/
theorem Unicode.clearAcceptance (hg : g.Unicode) : g.clearAcceptance.Unicode :=
  hg.congr fun _ => transitions_clearAcceptance

/-- The labels stay when the exit is demoted. -/
theorem Unicode.demoteExit (hg : g.Unicode) : g.demoteExit.Unicode :=
  hg.congr fun _ => transitions_demoteExit

/-- The labels stay when the exit accepts. -/
theorem Unicode.acceptAtExit (hg : g.Unicode) (owners : List Nat) :
    (g.acceptAtExit owners).Unicode :=
  hg.congr fun _ => transitions_acceptAtExit owners

end MaximalMunch.Nfa.Graph
