import MaximalMunch.Nfa.Basic

/-!
# What operations do to a graph

A graph is looked at through three views: its size, the transitions at an index
(`Graph.transitions`) and the marks at an index, that is whether the state accepts and for whom
(`Graph.marks`). Each operation is described by what it does to the three views; nothing else looks
at the array of states.
-/

namespace MaximalMunch.Nfa.Graph

/-- Whether the state at an index accepts, and its owners. -/
def marks (g : Graph) (i : Nat) : Option (Bool × List Nat) :=
  g.states[i]?.map fun s => (s.accepting, s.owners)

/-- A transition with its target moved up. -/
def shiftTransition (offset : Nat) (t : Transition) : Transition :=
  { t with target := t.target + offset }

variable {g h : Graph} {i : Nat}

/-- A graph is empty if it has no states. -/
theorem isEmpty_iff : g.isEmpty = true ↔ g.size = 0 := by
  rw [isEmpty, size, Array.isEmpty_iff_size_eq_zero]

/-- There are no transitions beyond the last state. -/
theorem transitions_of_size_le (hi : g.size ≤ i) : g.transitions i = [] := by
  rw [transitions, Array.getElem?_eq_none hi]
  rfl

/-- A state that has a transition is there. -/
theorem lt_size_of_mem_transitions {t : Transition} (ht : t ∈ g.transitions i) : i < g.size := by
  apply Nat.lt_of_not_le
  intro hi
  rw [transitions_of_size_le hi] at ht
  exact List.not_mem_nil ht

/-- A state is marked if it is there. -/
theorem marks_eq_none_iff : g.marks i = none ↔ g.size ≤ i := by
  rw [marks, Option.map_eq_none_iff, Array.getElem?_eq_none_iff]
  rfl

/-- An index with marks is that of a state. -/
theorem lt_size_of_marks {m : Bool × List Nat} (h : g.marks i = some m) : i < g.size := by
  apply Nat.lt_of_not_le
  intro hle
  rw [marks_eq_none_iff.2 hle] at h
  exact absurd h (by simp)

/-! ## Adding and changing states -/

@[simp] theorem size_empty : Graph.empty.size = 0 := rfl

@[simp] theorem size_add (s : State) : (g.add s).size = g.size + 1 := Array.size_push _

/-- A state is added with its transitions, behind the others. -/
theorem transitions_add (s : State) :
    (g.add s).transitions i = if i = g.size then s.transitions else g.transitions i := by
  rw [transitions, add, Array.getElem?_push]
  show ((if i = g.size then some s else g.states[i]?).map State.transitions).getD [] = _
  split <;> rfl

/-- A state is added with its marks, behind the others. -/
theorem marks_add (s : State) :
    (g.add s).marks i = if i = g.size then some (s.accepting, s.owners) else g.marks i := by
  rw [marks, add, Array.getElem?_push]
  show (if i = g.size then some s else g.states[i]?).map _ = _
  split <;> rfl

@[simp] theorem size_modify (k : Nat) (f : State → State) : (g.modify k f).size = g.size :=
  Array.size_modify

/-- What is done to a state is done to its transitions, and those of the others stay. -/
theorem transitions_modify (k : Nat) (f : State → State) :
    (g.modify k f).transitions i =
      ((if k = i then g.states[i]?.map f else g.states[i]?).map State.transitions).getD [] := by
  rw [transitions, modify, Array.getElem?_modify]

/-- What is done to a state is done to its marks, and those of the others stay. -/
theorem marks_modify (k : Nat) (f : State → State) :
    (g.modify k f).marks i =
      (if k = i then g.states[i]?.map f else g.states[i]?).map fun s =>
        (s.accepting, s.owners) := by
  rw [marks, modify, Array.getElem?_modify]

@[simp] theorem size_connect (source target : Nat) (l : Label) :
    (g.connect source l target).size = g.size := size_modify _ _

@[simp] theorem size_connectEpsilon (source target : Nat) :
    (g.connectEpsilon source target).size = g.size := size_connect _ _ _

/-- A further transition comes behind those that its source has. -/
theorem transitions_connect {source target : Nat} {l : Label} (hs : source < g.size) :
    (g.connect source l target).transitions i =
      if i = source then g.transitions i ++ [⟨l, target⟩] else g.transitions i := by
  rw [connect, transitions_modify, transitions]
  by_cases hi : i = source
  · subst hi
    rw [if_pos rfl, if_pos rfl, Array.getElem?_eq_getElem hs]
    rfl
  · rw [if_neg (fun h => hi h.symm), if_neg hi]

@[simp] theorem marks_connect (source target : Nat) (l : Label) :
    (g.connect source l target).marks i = g.marks i := by
  rw [connect, marks_modify, marks]
  split
  · cases g.states[i]? <;> rfl
  · rfl

/-! ## Laying graphs out one after the other -/

@[simp] theorem size_append : (g.append h).size = g.size + h.size := by
  rw [append, size, Array.size_append, Array.size_map]
  rfl

/-- Appended transitions lead to the indices that their targets have now. -/
theorem transitions_append :
    (g.append h).transitions i =
      if i < g.size then g.transitions i
      else (h.transitions (i - g.size)).map (shiftTransition g.size) := by
  rw [transitions, append]
  by_cases hi : i < g.size
  · rw [if_pos hi, Array.getElem?_append_left hi, transitions]
  · rw [if_neg hi, Array.getElem?_append_right (Nat.le_of_not_lt hi), Array.getElem?_map,
      transitions]
    show ((h.states[i - g.size]?.map (State.shift g.size)).map State.transitions).getD [] = _
    cases h.states[i - g.size]? <;> rfl

/-- Appended states keep their marks. -/
theorem marks_append :
    (g.append h).marks i = if i < g.size then g.marks i else h.marks (i - g.size) := by
  rw [marks, append]
  by_cases hi : i < g.size
  · rw [if_pos hi, Array.getElem?_append_left hi, marks]
  · rw [if_neg hi, Array.getElem?_append_right (Nat.le_of_not_lt hi), Array.getElem?_map, marks]
    show (h.states[i - g.size]?.map (State.shift g.size)).map _ = _
    cases h.states[i - g.size]? <;> rfl

/-! ## Renaming and marking -/

@[simp] theorem size_copy (next : Nat) : (g.copy next).size = g.size := Array.size_mapIdx

@[simp] theorem transitions_copy (next : Nat) : (g.copy next).transitions i = g.transitions i := by
  rw [transitions, copy, Array.getElem?_mapIdx, transitions]
  cases g.states[i]? <;> rfl

@[simp] theorem marks_copy (next : Nat) : (g.copy next).marks i = g.marks i := by
  rw [marks, copy, Array.getElem?_mapIdx, marks]
  cases g.states[i]? <;> rfl

@[simp] theorem size_clearAcceptance : g.clearAcceptance.size = g.size := Array.size_map

@[simp] theorem transitions_clearAcceptance :
    g.clearAcceptance.transitions i = g.transitions i := by
  rw [transitions, clearAcceptance, Array.getElem?_map, transitions]
  cases g.states[i]? <;> rfl

/-- Cleared states do not accept and have no owners. -/
theorem marks_clearAcceptance :
    g.clearAcceptance.marks i = (g.marks i).map fun _ => (false, []) := by
  rw [marks, clearAcceptance, Array.getElem?_map, marks]
  cases g.states[i]? <;> rfl

@[simp] theorem size_demoteExit : g.demoteExit.size = g.size := size_modify _ _

@[simp] theorem transitions_demoteExit : g.demoteExit.transitions i = g.transitions i := by
  rw [demoteExit, transitions_modify, transitions]
  split
  · cases g.states[i]? <;> rfl
  · rfl

/-- A demoted exit does not accept and has no owners. The other states keep their marks. -/
theorem marks_demoteExit :
    g.demoteExit.marks i =
      if i = g.exit then (g.marks i).map fun _ => (false, []) else g.marks i := by
  rw [demoteExit, marks_modify, marks]
  by_cases hi : i = g.exit
  · rw [if_pos hi.symm, if_pos hi]
    cases g.states[i]? <;> rfl
  · rw [if_neg (fun h => hi h.symm), if_neg hi]

/-- Further owners change nothing but the owners. -/
theorem foldl_addOwner (owners : List Nat) : ∀ s : State,
    owners.foldl State.addOwner s =
      { s with owners := owners.foldl (fun os o => Ascending.insert o os) s.owners } := by
  induction owners with
  | nil => intro s; rfl
  | cons o rest ih => intro s; rw [List.foldl_cons, ih]; rfl

@[simp] theorem size_acceptAtExit (owners : List Nat) : (g.acceptAtExit owners).size = g.size :=
  size_modify _ _

@[simp] theorem transitions_acceptAtExit (owners : List Nat) :
    (g.acceptAtExit owners).transitions i = g.transitions i := by
  rw [acceptAtExit, transitions_modify, transitions]
  split
  · simp only [foldl_addOwner]
    cases g.states[i]? <;> rfl
  · rfl

/-- The exit accepts for the given owners beside those that it has. The other states keep their
marks. -/
theorem marks_acceptAtExit (owners : List Nat) :
    (g.acceptAtExit owners).marks i =
      if i = g.exit then
        (g.marks i).map fun m => (true, owners.foldl (fun os o => Ascending.insert o os) m.2)
      else g.marks i := by
  rw [acceptAtExit, marks_modify, marks]
  by_cases hi : i = g.exit
  · rw [if_pos hi.symm, if_pos hi]
    simp only [foldl_addOwner]
    cases g.states[i]? <;> rfl
  · rw [if_neg (fun h => hi h.symm), if_neg hi]

/-- The exit is where it was if the size is what it was. -/
theorem exit_congr (hsize : g.size = h.size) : g.exit = h.exit := by
  rw [exit, exit, hsize]

@[simp] theorem exit_copy (next : Nat) : (g.copy next).exit = g.exit := exit_congr (size_copy next)

@[simp] theorem exit_acceptAtExit (owners : List Nat) : (g.acceptAtExit owners).exit = g.exit :=
  exit_congr (size_acceptAtExit owners)

end MaximalMunch.Nfa.Graph
