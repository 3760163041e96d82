import MaximalMunch.Ascending
import MaximalMunch.Proofs.Nfa.Composition

/-!
# Marks of composed graphs

While fragments are put together no state of them accepts (`Graph.Quiet`). The graph of a token
accepts at its exit and nowhere else (`Graph.Owned`).
-/

namespace MaximalMunch.Nfa.Graph

variable {g h : Graph} {i : Nat} {owners : List Nat}

/-! ## Quiet graphs -/

/-- No state accepts or has owners. -/
def Quiet (g : Graph) : Prop :=
  ∀ i m, g.marks i = some m → m = (false, [])

/-- Graphs in which nothing accepts make graphs in which nothing accepts. -/
theorem compositional_quiet : Compositional Quiet where
  empty i m h := by
    rw [marks_eq_none_iff.2 (Nat.zero_le i)] at h
    exact absurd h (by simp)
  add id hg i m h := by
    rw [marks_add] at h
    split at h
    · exact (Option.some.inj h).symm
    · exact hg i m h
  connectEpsilon source target hg i m h := by
    rw [Graph.connectEpsilon, marks_connect] at h
    exact hg i m h
  append hg hh i m h := by
    rw [marks_append] at h
    split at h
    · exact hg i m h
    · exact hh _ m h

/-- In the graph of a class nothing accepts. -/
theorem Quiet.symbol (next : Nat) (members : CharClass) : (symbol next members).Quiet := by
  intro i m h
  rw [Graph.symbol, marks_connect] at h
  exact compositional_quiet.add (next + 1) (compositional_quiet.add next compositional_quiet.empty)
    i m h

/-- After acceptance is cleared nothing accepts. -/
theorem Quiet.clearAcceptance (g : Graph) : g.clearAcceptance.Quiet := by
  intro i m h
  rw [marks_clearAcceptance] at h
  obtain ⟨_, -, rfl⟩ := Option.map_eq_some_iff.1 h
  rfl

/-! ## Graphs that accept at the exit -/

/-- The exit accepts for some owners. No other state accepts or has owners. -/
def Owned (g : Graph) (owners : List Nat) : Prop :=
  ∀ i m, g.marks i = some m → m = if i = g.exit then (true, owners) else (false, [])

/-- A state is marked if it is there. -/
theorem exists_marks_of_lt (hi : i < g.size) : ∃ m, g.marks i = some m :=
  Option.ne_none_iff_exists'.1 fun h => absurd (marks_eq_none_iff.1 h) (Nat.not_le.2 hi)

/-- The exit of such a graph accepts for the owners. -/
theorem Owned.marks_exit (hg : g.Owned owners) (hsize : 0 < g.size) :
    g.marks g.exit = some (true, owners) := by
  obtain ⟨m, hm⟩ := exists_marks_of_lt (exit_lt_size hsize)
  rw [hm, hg _ _ hm, if_pos rfl]

/-- Where the graph accepts is its exit. -/
theorem Owned.eq_exit (hg : g.Owned owners) {owners' : List Nat}
    (h : g.marks i = some (true, owners')) : i = g.exit ∧ owners' = owners := by
  have hm := hg i _ h
  by_cases hi : i = g.exit
  · rw [if_pos hi] at hm
    exact ⟨hi, (Prod.mk.inj hm).2⟩
  · rw [if_neg hi] at hm
    exact absurd (Prod.mk.inj hm).1 (by simp)

/-- A copy belongs to the same owners. -/
theorem Owned.copy (hg : g.Owned owners) (next : Nat) : (g.copy next).Owned owners := by
  intro i m h
  rw [marks_copy] at h
  rw [exit_copy]
  exact hg i m h

/-- A quiet graph gets its first owners. -/
theorem Quiet.acceptAtExit (hg : g.Quiet) (owners : List Nat) :
    (g.acceptAtExit owners).Owned (owners.foldl (fun os o => Ascending.insert o os) []) := by
  intro i m h
  rw [exit_acceptAtExit]
  rw [marks_acceptAtExit] at h
  split at h
  · rename_i hi
    obtain ⟨m', hm', rfl⟩ := Option.map_eq_some_iff.1 h
    rw [if_pos hi, hg i m' hm']
  · rename_i hi
    rw [if_neg hi]
    exact hg i m h

/-- A graph that accepts for an owner may be told so again. -/
theorem Owned.marks_acceptAtExit {o : Nat} (hg : g.Owned [o]) (i : Nat) :
    (g.acceptAtExit [o]).marks i = g.marks i := by
  rw [Graph.marks_acceptAtExit]
  split
  · rename_i hi
    cases hm : g.marks i with
    | none => rfl
    | some m =>
      rw [hg i m hm, if_pos hi]
      simp [Ascending.insert]
  · rfl

/-- Without the marks of its exit the graph is quiet. -/
theorem Owned.demoteExit (hg : g.Owned owners) : g.demoteExit.Quiet := by
  intro i m h
  rw [marks_demoteExit] at h
  split at h
  · obtain ⟨_, -, rfl⟩ := Option.map_eq_some_iff.1 h
    rfl
  · rename_i hi
    rw [hg i m h, if_neg hi]

/-! ## Marks of branches -/

/-- The states before the branches keep their marks. -/
theorem marks_branch_of_lt {parts : List Graph} : ∀ {g : Graph}, i < g.size →
    (g.branch parts).marks i = g.marks i := by
  induction parts with
  | nil => intro g _; rfl
  | cons first rest ih =>
    intro g hi
    have hlt : i < ((g.append first).connectEpsilon 0 g.size).size := by
      rw [size_connectEpsilon, size_append]
      exact Nat.lt_add_right _ hi
    rw [branch_cons, ih hlt, connectEpsilon, marks_connect, marks_append, if_pos hi]

/-- The states of a branch have the marks of the part. -/
theorem marks_branch {parts : List Graph} {o : Nat} {part : Graph} : ∀ {g : Graph},
    (o, part) ∈ placed g.size parts → i < part.size →
      (g.branch parts).marks (o + i) = part.marks i := by
  induction parts with
  | nil => intro g h; exact absurd h List.not_mem_nil
  | cons first rest ih =>
    intro g h hi
    have hsize : ((g.append first).connectEpsilon 0 g.size).size = g.size + first.size := by
      rw [size_connectEpsilon, size_append]
    rw [branch_cons]
    rcases List.mem_cons.1 h with heq | h
    · -- the parts that follow leave the marks of this one alone
      obtain ⟨rfl, rfl⟩ := Prod.mk.inj heq
      rw [marks_branch_of_lt (by rw [hsize]; omega), connectEpsilon, marks_connect, marks_append,
        if_neg (by omega), Nat.add_sub_cancel_left]
    · rw [← hsize] at h
      exact ih h hi

end MaximalMunch.Nfa.Graph
