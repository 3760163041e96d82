import MaximalMunch.Proofs.Nfa.Operations

/-!
# Paths

`Graph.Path g i w j` says that one can go from index `i` of `g` to index `j` and consume the code
points `w` on the way. A graph is often a part of another one, at some offset and with further ways
out of its exit (`Graph.Houses`). Then a path of the larger graph that begins in the part either
stays there or leaves it at the exit (`Houses.path_cases`).
-/

namespace MaximalMunch.Nfa.Graph

/-- A transition with label `l` leads from index `i` to index `j`. -/
def Edge (g : Graph) (i : Nat) (l : Label) (j : Nat) : Prop :=
  ⟨l, j⟩ ∈ g.transitions i

/-- The code points that can be consumed on the way from one index to another. -/
inductive Path (g : Graph) : Nat → List UInt32 → Nat → Prop
  | nil (i : Nat) : Path g i [] i
  | epsilon {i j k : Nat} {w : List UInt32} (e : g.Edge i .epsilon j) (p : Path g j w k) :
      Path g i w k
  | consume {i j k : Nat} {members : CharClass} {cp : UInt32} {w : List UInt32}
      (e : g.Edge i (.oneOf members) j) (hcp : members.contains cp = true) (p : Path g j w k) :
      Path g i (cp :: w) k

/-- All transitions lead to states of the graph. -/
def InRange (g : Graph) : Prop :=
  ∀ ⦃i l j⦄, g.Edge i l j → j < g.size

variable {g h : Graph} {i j k : Nat} {l : Label} {u v w : List UInt32}

/-- The transitions are in range if those of each state in turn are. -/
theorem inRange_of_forall_mem
    (h : ∀ n ∈ g.states.toList, ∀ t ∈ n.transitions, t.target < g.size) : g.InRange := by
  intro i l j e
  rw [Edge, transitions] at e
  cases hn : g.states[i]? with
  | none =>
    rw [hn] at e
    exact absurd e List.not_mem_nil
  | some n =>
    rw [hn] at e
    exact h n (Array.mem_toList_iff.2 (Array.mem_of_getElem? hn)) _ e

/-! ## Edges of composed graphs -/

/-- An edge begins at a state. -/
theorem Edge.lt_size (e : g.Edge i l j) : i < g.size := lt_size_of_mem_transitions e

@[simp] theorem not_edge_empty : ¬ Graph.empty.Edge i l j := fun e => absurd e.lt_size (by simp)

@[simp] theorem edge_add (id : Nat) : (g.add { id }).Edge i l j ↔ g.Edge i l j := by
  rw [Edge, transitions_add, Edge]
  split
  · rename_i hi
    rw [transitions_of_size_le (Nat.le_of_eq hi.symm)]
  · rfl

/-- The edges with a further one. -/
theorem edge_connect {source target : Nat} {label : Label} (hs : source < g.size) :
    (g.connect source label target).Edge i l j ↔
      g.Edge i l j ∨ (i = source ∧ l = label ∧ j = target) := by
  rw [Edge, transitions_connect hs, Edge]
  by_cases hi : i = source
  · rw [if_pos hi, List.mem_append, List.mem_singleton, Transition.mk.injEq]
    simp [hi]
  · rw [if_neg hi]
    simp [hi]

/-- The edges with a further empty one. -/
theorem edge_connectEpsilon {source target : Nat} (hs : source < g.size) :
    (g.connectEpsilon source target).Edge i l j ↔
      g.Edge i l j ∨ (i = source ∧ l = .epsilon ∧ j = target) :=
  edge_connect hs

/-- The edges of two graphs one behind the other. -/
theorem edge_append :
    (g.append h).Edge i l j ↔
      g.Edge i l j ∨ ∃ i' j', i = g.size + i' ∧ j = g.size + j' ∧ h.Edge i' l j' := by
  rw [Edge, transitions_append]
  by_cases hi : i < g.size
  · rw [if_pos hi]
    constructor
    · exact Or.inl
    · rintro (e | ⟨i', j', rfl, -, -⟩)
      · exact e
      · omega
  · rw [if_neg hi, List.mem_map]
    constructor
    · rintro ⟨t, ht, heq⟩
      obtain ⟨rfl, rfl⟩ := Transition.mk.inj heq
      exact Or.inr ⟨i - g.size, t.target, by omega, Nat.add_comm _ _, ht⟩
    · rintro (e | ⟨i', j', rfl, rfl, e⟩)
      · exact absurd e.lt_size hi
      · rw [Nat.add_sub_cancel_left]
        exact ⟨_, e, by rw [shiftTransition, Nat.add_comm]⟩

/-! ## Paths -/

/-- Paths with a common end and start make one path. -/
theorem Path.append (p : g.Path i u j) (q : g.Path j v k) : g.Path i (u ++ v) k := by
  induction p with
  | nil => exact q
  | epsilon e _ ih => exact .epsilon e (ih q)
  | consume e hcp _ ih => exact .consume e hcp (ih q)

/-- A graph with more edges has more paths. -/
theorem Path.mono (hedge : ∀ ⦃i l j⦄, g.Edge i l j → h.Edge i l j) (p : g.Path i w j) :
    h.Path i w j := by
  induction p with
  | nil i => exact .nil i
  | epsilon e _ ih => exact .epsilon (hedge e) ih
  | consume e hcp _ ih => exact .consume (hedge e) hcp ih

/-- Only transitions matter to paths. -/
theorem path_congr (htrans : ∀ i, g.transitions i = h.transitions i) :
    g.Path i w j ↔ h.Path i w j :=
  ⟨.mono fun i _ _ e => by rw [Edge, ← htrans i]; exact e,
    .mono fun i _ _ e => by rw [Edge, htrans i]; exact e⟩

/-- A path to a state of the graph begins at one. -/
theorem Path.lt_size (p : g.Path i w j) (hj : j < g.size) : i < g.size := by
  cases p with
  | nil => exact hj
  | epsilon e => exact e.lt_size
  | consume e => exact e.lt_size

/-- In a graph with all transitions in range, paths do not leave it. -/
theorem Path.lt_size_of_inRange (hg : g.InRange) (p : g.Path i w j) (hi : i < g.size) :
    j < g.size := by
  induction p with
  | nil => exact hi
  | epsilon e _ ih => exact ih (hg e)
  | consume e _ _ ih => exact ih (hg e)

/-- Where no edge leads, no path goes. -/
theorem Path.eq_nil (p : g.Path i w j) (hi : ∀ l k, ¬ g.Edge i l k) : w = [] ∧ j = i := by
  cases p with
  | nil => exact ⟨rfl, rfl⟩
  | epsilon e => exact absurd e (hi _ _)
  | consume e => exact absurd e (hi _ _)

/-- A path that consumes something goes to a consuming edge first, and on from its target. -/
theorem path_cons {cp : UInt32} :
    g.Path i (cp :: w) k ↔ ∃ j members j', g.Path i [] j ∧ g.Edge j (.oneOf members) j' ∧
      members.contains cp = true ∧ g.Path j' w k := by
  constructor
  · intro p
    generalize hv : cp :: w = v at p
    induction p with
    | nil => exact absurd hv (by simp)
    | epsilon e _ ih =>
      obtain ⟨j, members, j', p, rest⟩ := ih hv
      exact ⟨j, members, j', .epsilon e p, rest⟩
    | consume e hcp p _ =>
      obtain ⟨rfl, rfl⟩ := List.cons.inj hv
      exact ⟨_, _, _, .nil _, e, hcp, p⟩
  · rintro ⟨j, members, j', p, e, hcp, q⟩
    exact p.append (.consume e hcp q)

/-! ## A graph inside another -/

/-- From index `offset` on, `g` holds the states of `h` with their transitions. Only the exit of `h`
may have others, which consume nothing and lead to indices with the property `out`. -/
def Houses (g h : Graph) (offset : Nat) (out : Nat → Prop) : Prop :=
  ∀ ⦃i⦄, i < h.size → ∀ l j, g.Edge (offset + i) l j ↔
    (∃ j', j = offset + j' ∧ h.Edge i l j') ∨ (i = h.exit ∧ l = .epsilon ∧ out j)

variable {offset : Nat} {out : Nat → Prop}

/-- The paths of a part are paths of the whole. -/
theorem Houses.path (H : g.Houses h offset out) (hh : h.InRange) (p : h.Path i w j)
    (hi : i < h.size) : g.Path (offset + i) w (offset + j) := by
  induction p with
  | nil i => exact .nil _
  | epsilon e _ ih => exact .epsilon ((H hi _ _).2 (Or.inl ⟨_, rfl, e⟩)) (ih (hh e))
  | consume e hcp _ ih => exact .consume ((H hi _ _).2 (Or.inl ⟨_, rfl, e⟩)) hcp (ih (hh e))

/-- A path of the whole that begins in a part stays in the part, or it leaves the part at its
exit. -/
theorem Houses.path_cases (H : g.Houses h offset out) (hh : h.InRange)
    (p : g.Path (offset + i) w k) (hi : i < h.size) :
    (∃ j, k = offset + j ∧ h.Path i w j) ∨
      ∃ u v j, w = u ++ v ∧ h.Path i u h.exit ∧ out j ∧ g.Path j v k := by
  -- the induction is on the path of the whole, as long as it has not left the part
  generalize hstart : offset + i = start at p
  induction p generalizing i with
  | nil => exact Or.inl ⟨i, hstart.symm, .nil i⟩
  | @epsilon _ j _ w e p ih =>
    subst hstart
    rcases (H hi _ _).1 e with ⟨j', rfl, e'⟩ | ⟨rfl, -, hout⟩
    · rcases ih (hh e') rfl with ⟨k', hk, p'⟩ | ⟨u, v, t, hw, p', hout, q⟩
      · exact Or.inl ⟨k', hk, .epsilon e' p'⟩
      · exact Or.inr ⟨u, v, t, hw, .epsilon e' p', hout, q⟩
    · exact Or.inr ⟨[], w, j, rfl, .nil _, hout, p⟩
  | consume e hcp p ih =>
    subst hstart
    rcases (H hi _ _).1 e with ⟨j', rfl, e'⟩ | ⟨-, hl, -⟩
    · rcases ih (hh e') rfl with ⟨k', hk, p'⟩ | ⟨u, v, t, rfl, p', hout, q⟩
      · exact Or.inl ⟨k', hk, .consume e' hcp p'⟩
      · exact Or.inr ⟨_ :: u, v, t, rfl, .consume e' hcp p', hout, q⟩
    · exact absurd hl (by simp)

/-- Without further ways out a path stays in the part. -/
theorem Houses.path_iff (H : g.Houses h offset fun _ => False) (hh : h.InRange) (hi : i < h.size) :
    g.Path (offset + i) w k ↔ ∃ j, k = offset + j ∧ h.Path i w j := by
  constructor
  · intro p
    rcases H.path_cases hh p hi with h | ⟨_, _, _, _, _, hout, _⟩
    · exact h
    · exact hout.elim
  · rintro ⟨j, rfl, p⟩
    exact H.path hh p hi

end MaximalMunch.Nfa.Graph
