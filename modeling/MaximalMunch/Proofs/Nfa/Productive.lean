import MaximalMunch.Proofs.Nfa.Alternatives

/-!
# No dead ends

In a fragment that is built from classes with members every state is on a way to the exit
(`Graph.Productive`). So whatever has been consumed on the way to a state is the beginning of a word
that the fragment spells. Every way of building fragments keeps it so.
-/

namespace MaximalMunch.Nfa.Graph

/-- A graph with states whose transitions stay inside, and from each of whose states some path leads
to the exit. -/
structure Productive (g : Graph) : Prop where
  size_pos : 0 < g.size
  inRange : g.InRange
  exists_path : ∀ i < g.size, ∃ w, g.Path i w g.exit

variable {g h : Graph}

/-- A path that consumes two words one after the other can be cut between them. -/
theorem Path.exists_of_append {i k : Nat} {u v : List UInt32} (p : g.Path i (u ++ v) k) :
    ∃ j, g.Path i u j ∧ g.Path j v k := by
  induction u generalizing i with
  | nil => exact ⟨i, .nil i, p⟩
  | cons cp u ih =>
    obtain ⟨j, members, j', p, e, hcp, q⟩ := path_cons.1 p
    obtain ⟨j'', q, q'⟩ := ih q
    exact ⟨j'', path_cons.2 ⟨j, members, j', p, e, hcp, q⟩, q'⟩

namespace Productive

/-- Ids and marks do not matter. -/
theorem congr (H : g.Productive) (hsize : h.size = g.size)
    (htrans : ∀ i, h.transitions i = g.transitions i) : h.Productive where
  size_pos := hsize ▸ H.size_pos
  inRange i l j e := by
    rw [Edge, htrans] at e
    exact hsize ▸ H.inRange e
  exists_path i hi := by
    obtain ⟨w, p⟩ := H.exists_path i (hsize ▸ hi)
    rw [exit_congr hsize]
    exact ⟨w, (path_congr htrans).2 p⟩

/-- A copy of a graph without dead ends has none. -/
theorem copy (H : g.Productive) (next : Nat) : (g.copy next).Productive :=
  H.congr (size_copy next) fun _ => transitions_copy next

/-- Acceptance has no part in dead ends. -/
theorem clearAcceptance (H : g.Productive) : g.clearAcceptance.Productive :=
  H.congr size_clearAcceptance fun _ => transitions_clearAcceptance

/-- A graph without dead ends has none after its exit is demoted. -/
theorem demoteExit (H : g.Productive) : g.demoteExit.Productive :=
  H.congr size_demoteExit fun _ => transitions_demoteExit

/-- A graph without dead ends has none after its exit accepts. -/
theorem acceptAtExit (H : g.Productive) (owners : List Nat) : (g.acceptAtExit owners).Productive :=
  H.congr (size_acceptAtExit owners) fun _ => transitions_acceptAtExit owners

/-- The graph of a class that has a member has no dead ends. -/
theorem symbol {members : CharClass} (hmember : ∃ cp, members.contains cp = true) (next : Nat) :
    (symbol next members).Productive := by
  refine ⟨by simp, .symbol next members, fun i hi => ?_⟩
  obtain ⟨cp, hcp⟩ := hmember
  rw [size_symbol] at hi
  rw [exit_symbol]
  by_cases h0 : i = 0
  · exact ⟨[cp], .consume (edge_symbol.2 ⟨h0, rfl, rfl⟩) hcp (.nil 1)⟩
  · obtain rfl : i = 1 := by omega
    exact ⟨[], .nil 1⟩

/-- A chain of graphs without dead ends has none. -/
theorem chain (H : g.Productive) (K : h.Productive) : (g.chain h).Productive := by
  refine ⟨?_, H.inRange.chain H.size_pos K.size_pos K.inRange, fun i hi => ?_⟩
  · rw [size_chain]
    exact Nat.add_pos_left H.size_pos _
  rw [size_chain] at hi
  rw [exit_chain K.size_pos]
  have hright : ∀ j < h.size, ∃ w, (g.chain h).Path (g.size + j) w (g.size + h.exit) := by
    intro j hj
    obtain ⟨w, p⟩ := K.exists_path j hj
    exact ⟨w, (houses_chain_right H.size_pos).path K.inRange p hj⟩
  by_cases hg : i < g.size
  · -- through the rest of the first fragment and all of the second
    obtain ⟨u, p⟩ := H.exists_path i hg
    obtain ⟨v, q⟩ := hright 0 K.size_pos
    have p' := (houses_chain_left (h := h) H.size_pos).path H.inRange p hg
    rw [Nat.zero_add, Nat.zero_add] at p'
    exact ⟨u ++ v, p'.append (.epsilon ((edge_chain H.size_pos).2 (Or.inr ⟨rfl, rfl, rfl⟩)) q)⟩
  · obtain ⟨j, rfl⟩ := Nat.exists_eq_add_of_le (Nat.le_of_not_lt hg)
    exact hright j (by omega)

/-- The repetition of a graph without dead ends has none. -/
theorem wrap (H : g.Productive) (next : Nat) (times : Repetition) :
    (g.wrap next times).Productive := by
  refine ⟨by simp, H.inRange.wrap H.size_pos next times, fun i hi => ?_⟩
  rw [size_wrap] at hi
  rw [exit_wrap]
  have hinside : ∀ j < g.size, ∃ w, (g.wrap next times).Path (1 + j) w (g.size + 1) := by
    intro j hj
    obtain ⟨w, p⟩ := H.exists_path j hj
    have hout : (g.wrap next times).Edge (1 + g.exit) .epsilon (g.size + 1) :=
      (edge_wrap H.size_pos).2 (Or.inr (Or.inr ⟨rfl, rfl, Or.inl rfl⟩))
    exact ⟨w ++ [], ((houses_wrap H.size_pos).path H.inRange p hj).append (.epsilon hout (.nil _))⟩
  by_cases h0 : i = 0
  · obtain ⟨w, p⟩ := hinside 0 H.size_pos
    exact ⟨w, .epsilon ((edge_wrap H.size_pos).2 (Or.inr (Or.inl ⟨h0, rfl, Or.inl rfl⟩))) p⟩
  by_cases hexit : i = g.size + 1
  · rw [hexit]
    exact ⟨[], .nil _⟩
  · obtain ⟨j, rfl⟩ := Nat.exists_eq_add_of_le (Nat.pos_of_ne_zero h0)
    exact hinside j (by omega)

/-- Alternatives of graphs without dead ends have none. -/
theorem alternatives {parts : List Graph} (hne : parts ≠ [])
    (hparts : ∀ part ∈ parts, part.Productive) (startId exitId : Nat) :
    (alternatives startId exitId parts).Productive := by
  have hpos : ∀ part ∈ parts, 0 < part.size := fun part hpart => (hparts part hpart).size_pos
  refine ⟨by simp, ?_, fun i hi => ?_⟩
  · exact .alternatives (fun part hpart => ⟨hpos part hpart, (hparts part hpart).inRange⟩) _ _
  rw [size_alternatives] at hi
  rw [exit_alternatives]
  have hinside : ∀ {o part}, (o, part) ∈ placed 1 parts → ∀ j < part.size,
      ∃ w, (Graph.alternatives startId exitId parts).Path (o + j) w (1 + totalSize parts) := by
    intro o part hmem j hj
    have H := hparts part (bounds_of_mem_placed hmem).2.2
    obtain ⟨w, p⟩ := H.exists_path j hj
    have hout : (Graph.alternatives startId exitId parts).Edge (o + part.exit) .epsilon
        (1 + totalSize parts) :=
      (edge_alternatives hpos).2 ⟨o, part, hmem, Or.inr (Or.inr ⟨rfl, rfl, rfl⟩)⟩
    exact ⟨w ++ [], ((houses_alternatives hpos hmem).path H.inRange p hj).append
      (.epsilon hout (.nil _))⟩
  by_cases h0 : i = 0
  · -- the start leads into the first of the parts
    obtain ⟨part, hpart⟩ := List.exists_mem_of_ne_nil parts hne
    obtain ⟨o, hmem⟩ := exists_mem_placed 1 hpart
    obtain ⟨w, p⟩ := hinside hmem 0 (hpos part hpart)
    rw [h0]
    exact ⟨w, .epsilon ((edge_start_alternatives hpos).2 ⟨rfl, part, hmem⟩) p⟩
  by_cases hexit : i = 1 + totalSize parts
  · rw [hexit]
    exact ⟨[], .nil _⟩
  · have hlt : i < 1 + totalSize parts := by omega
    obtain ⟨o, part, j, hmem, hj, rfl⟩ := exists_placed_of_lt (Nat.pos_of_ne_zero h0) hlt
    exact hinside hmem j hj

end Productive

end MaximalMunch.Nfa.Graph
