import MaximalMunch.Proofs.Nfa.Alternatives

/-!
# Entries and exits of fragments

A fragment is entered at index 0 and left at its last index, and these stay its ends: no transition
of the fragment itself leads back to the one or on from the other (`Graph.Sealed`). So fragments can
be put together without a match slipping from one part into another by a way that is not theirs.
-/

namespace MaximalMunch.Nfa.Graph

/-- A graph with states whose transitions stay inside, do not return to index 0 and do not leave the
last index. -/
structure Sealed (g : Graph) : Prop where
  size_pos : 0 < g.size
  inRange : g.InRange
  not_edge_entry : ∀ i l, ¬ g.Edge i l 0
  not_edge_exit : ∀ l j, ¬ g.Edge g.exit l j

variable {g h : Graph}

namespace Sealed

/-- Ids and marks do not matter. -/
theorem congr (H : g.Sealed) (hsize : h.size = g.size)
    (htrans : ∀ i, h.transitions i = g.transitions i) : h.Sealed where
  size_pos := hsize ▸ H.size_pos
  inRange i l j e := by
    rw [Edge, htrans] at e
    exact hsize ▸ H.inRange e
  not_edge_entry i l e := by
    rw [Edge, htrans] at e
    exact H.not_edge_entry i l e
  not_edge_exit l j e := by
    rw [Edge, htrans, exit_congr hsize] at e
    exact H.not_edge_exit l j e

/-- A copy of a sealed graph is sealed. -/
theorem copy (H : g.Sealed) (next : Nat) : (g.copy next).Sealed :=
  H.congr (size_copy next) fun _ => transitions_copy next

/-- Acceptance has no part in sealing. -/
theorem clearAcceptance (H : g.Sealed) : g.clearAcceptance.Sealed :=
  H.congr size_clearAcceptance fun _ => transitions_clearAcceptance

/-- A sealed graph stays so when its exit is demoted. -/
theorem demoteExit (H : g.Sealed) : g.demoteExit.Sealed :=
  H.congr size_demoteExit fun _ => transitions_demoteExit

/-- A sealed graph stays so when its exit accepts. -/
theorem acceptAtExit (H : g.Sealed) (owners : List Nat) : (g.acceptAtExit owners).Sealed :=
  H.congr (size_acceptAtExit owners) fun _ => transitions_acceptAtExit owners

/-- The graph of a class is sealed. -/
theorem symbol (next : Nat) (members : CharClass) : (symbol next members).Sealed where
  size_pos := by simp
  inRange := .symbol next members
  not_edge_entry i l e := absurd (edge_symbol.1 e).2.2 (by decide)
  not_edge_exit l j e := by
    rw [exit_symbol] at e
    exact absurd (edge_symbol.1 e).1 (by decide)

/-- A chain of sealed graphs is sealed: it is entered through the first part and left through the
second. -/
theorem chain (H : g.Sealed) (K : h.Sealed) : (g.chain h).Sealed where
  size_pos := by
    rw [size_chain]
    exact Nat.add_pos_left H.size_pos _
  inRange := H.inRange.chain H.size_pos K.size_pos K.inRange
  not_edge_entry i l e := by
    have := H.size_pos
    rcases (edge_chain H.size_pos).1 e with (e | ⟨i', j', -, hj, -⟩) | ⟨-, -, hj⟩
    · exact H.not_edge_entry i l e
    · omega
    · omega
  not_edge_exit l j e := by
    have := exit_lt_size H.size_pos
    rw [exit_chain K.size_pos] at e
    rcases (edge_chain H.size_pos).1 e with (e | ⟨i', j', hi, -, e⟩) | ⟨hi, -⟩
    · exact absurd e.lt_size (by omega)
    · obtain rfl := Nat.add_left_cancel hi
      exact K.not_edge_exit l j' e
    · omega

/-- The repetition of a graph is sealed, for its entry and its exit are new. -/
theorem wrap (H : g.Sealed) (next : Nat) (times : Repetition) : (g.wrap next times).Sealed where
  size_pos := by simp
  inRange := H.inRange.wrap H.size_pos next times
  not_edge_entry i l e := by
    rcases (edge_wrap H.size_pos).1 e with ⟨i', j', -, hj, -⟩ | ⟨-, -, hj⟩ | ⟨-, -, hj⟩ <;> omega
  not_edge_exit l j := by
    rw [exit_wrap]
    exact not_edge_exit_wrap H.size_pos l j

/-- Alternatives are sealed, for their entry and their exit are new. -/
theorem alternatives {parts : List Graph} (hparts : ∀ part ∈ parts, part.Sealed)
    (startId exitId : Nat) : (alternatives startId exitId parts).Sealed := by
  have hpos : ∀ part ∈ parts, 0 < part.size := fun part h => (hparts part h).size_pos
  refine ⟨by simp, ?_, fun i l e => ?_, fun l j => ?_⟩
  · exact .alternatives (fun part h => ⟨hpos part h, (hparts part h).inRange⟩) startId exitId
  · -- the parts lie behind the entry
    obtain ⟨o, part, hmem, h⟩ := (edge_alternatives hpos).1 e
    obtain ⟨hlo, -, -⟩ := bounds_of_mem_placed hmem
    rcases h with ⟨-, -, hj⟩ | ⟨i', j', -, hj, -⟩ | ⟨-, -, hj⟩ <;> omega
  · rw [exit_alternatives]
    exact not_edge_exit_alternatives hpos

end Sealed

end MaximalMunch.Nfa.Graph
