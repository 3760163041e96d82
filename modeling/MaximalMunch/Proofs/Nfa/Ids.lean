import MaximalMunch.Proofs.Nfa.Alternatives

/-!
# Ids of states

Besides its size, its transitions and its marks a graph has the list of the ids of its states
(`Graph.ids`). Composing keeps the ids of the parts and adds those of the new states; connecting and
marking leave them alone, and a copy has new ones.
-/

namespace MaximalMunch.Nfa.Graph

/-- The ids of the states in order. -/
def ids (g : Graph) : List Nat := g.states.toList.map (·.id)

variable {g h : Graph} {parts : List Graph}

/-- The ids of the states stand in the order of the states. -/
theorem getElem?_ids (i : Nat) : g.ids[i]? = g.states[i]?.map (·.id) := by
  rw [ids, List.getElem?_map, Array.getElem?_toList]

@[simp] theorem length_ids : g.ids.length = g.size := by
  rw [ids, List.length_map, Array.length_toList, size]

@[simp] theorem ids_empty : Graph.empty.ids = [] := rfl

@[simp] theorem ids_add (s : State) : (g.add s).ids = g.ids ++ [s.id] := by
  rw [ids, add, Array.toList_push, List.map_append]
  rfl

/-- What keeps the id of a state keeps the ids. -/
theorem ids_modify (k : Nat) (f : State → State) (hf : ∀ s, (f s).id = s.id) :
    (g.modify k f).ids = g.ids := by
  apply List.ext_getElem?
  intro i
  rw [getElem?_ids, getElem?_ids, modify, Array.getElem?_modify]
  split
  · rw [Option.map_map]
    exact congrArg (g.states[i]?.map ·) (funext hf)
  · rfl

@[simp] theorem ids_connectEpsilon (source target : Nat) :
    (g.connectEpsilon source target).ids = g.ids :=
  ids_modify source _ fun _ => rfl

@[simp] theorem ids_append : (g.append h).ids = g.ids ++ h.ids := by
  rw [ids, append, Array.toList_append, List.map_append, Array.toList_map, List.map_map]
  rfl

/-- A copy has the next ids, in order. -/
@[simp] theorem ids_copy (next : Nat) : (g.copy next).ids = List.range' next g.size := by
  apply List.ext_getElem?
  intro i
  rw [getElem?_ids, copy, Array.getElem?_mapIdx]
  by_cases hi : i < g.size
  · rw [List.getElem?_range' hi, Array.getElem?_eq_getElem hi, Nat.one_mul]
    rfl
  · have hle : g.size ≤ i := Nat.le_of_not_lt hi
    rw [List.getElem?_eq_none (by rwa [List.length_range']), Array.getElem?_eq_none hle]
    rfl

@[simp] theorem ids_clearAcceptance : g.clearAcceptance.ids = g.ids := by
  rw [ids, clearAcceptance, Array.toList_map, List.map_map]
  rfl

@[simp] theorem ids_demoteExit : g.demoteExit.ids = g.ids :=
  ids_modify g.exit _ fun _ => rfl

@[simp] theorem ids_acceptAtExit (owners : List Nat) : (g.acceptAtExit owners).ids = g.ids :=
  ids_modify g.exit _ fun s => by rw [foldl_addOwner]

/-! ## Fragments -/

/-- The graph of a class takes two ids. -/
theorem ids_symbol (next : Nat) (members : CharClass) :
    (symbol next members).ids = List.range' next 2 :=
  ids_modify 0 _ fun _ => rfl

/-- A chain has the ids of its parts, one part after the other. -/
theorem ids_chain : (g.chain h).ids = g.ids ++ h.ids := by
  unfold chain
  split
  · rename_i hempty
    have hlength : g.ids.length = 0 := length_ids.trans (isEmpty_iff.1 hempty)
    rw [List.eq_nil_of_length_eq_zero hlength, List.nil_append]
  · rw [ids_connectEpsilon, ids_append]

/-- So has a longer chain. -/
theorem ids_foldl_chain : ∀ g : Graph,
    (parts.foldl Graph.chain g).ids = g.ids ++ parts.flatMap ids := by
  induction parts with
  | nil => intro g; exact (List.append_nil _).symm
  | cons part rest ih =>
    intro g
    rw [List.foldl_cons, ih, ids_chain, List.flatMap_cons, List.append_assoc]

/-- A repeated graph takes two ids beside those of the graph: one in front and one behind. -/
theorem ids_wrap (next : Nat) (inner : Graph) (times : Repetition) :
    (wrap next inner times).ids = next :: (inner.ids ++ [next + 1]) := by
  have haround : (surround next inner).ids = next :: (inner.ids ++ [next + 1]) := by
    simp [surround]
  rw [wrap_eq]
  cases times <;> simpa using haround

/-- Branches bring their ids, one branch after the other. -/
theorem ids_branch : ∀ g : Graph, (g.branch parts).ids = g.ids ++ parts.flatMap ids := by
  induction parts with
  | nil => intro g; exact (List.append_nil _).symm
  | cons part rest ih =>
    intro g
    rw [branch_cons, ih, ids_connectEpsilon, ids_append, List.flatMap_cons, List.append_assoc]

/-- Connecting states changes no ids. -/
theorem ids_connectAll (target : Nat) (sources : List Nat) : ∀ g : Graph,
    (g.connectAll target sources).ids = g.ids := by
  induction sources with
  | nil => intro g; rfl
  | cons source rest ih => intro g; rw [connectAll_cons, ih, ids_connectEpsilon]

/-- Alternatives have the ids of their parts between those of the new start and the new exit. -/
theorem ids_alternatives (startId exitId : Nat) (parts : List Graph) :
    (alternatives startId exitId parts).ids = startId :: (parts.flatMap ids ++ [exitId]) := by
  rw [alternatives_eq, ids_connectAll, ids_add, ids_branch]
  rfl

end MaximalMunch.Nfa.Graph
