import MaximalMunch.Nfa.Closure
import MaximalMunch.Proofs.Nfa.Paths

/-!
# The epsilon closure is exact

`Graph.closure` holds the states that paths without code points reach from the seeds
(`mem_closure`). The search keeps the invariant `Spreading`: a marked state is reached, and its
targets are marked too unless it still waits on the stack. Every step takes one state off the stack,
and marking moves a state from the unmarked ones to the stack, so the states on the stack and the
unmarked ones together bound the steps that are left.
-/

namespace MaximalMunch.Nfa.Graph

variable {g : Graph} {seeds : List Nat} {marked : Array Bool} {stack : List Nat} {i : Nat}

/-- The targets of the edges that consume nothing. -/
theorem mem_epsilonTargets {j : Nat} : j ∈ g.epsilonTargets i ↔ g.Edge i .epsilon j := by
  rw [epsilonTargets, List.mem_filterMap, Edge]
  constructor
  · rintro ⟨⟨l, k⟩, ht, hj⟩
    cases l with
    | epsilon =>
      obtain rfl : k = j := Option.some.inj hj
      exact ht
    | oneOf members => exact absurd hj (by simp)
  · intro e
    exact ⟨_, e, rfl⟩

/-! ## Marking -/

@[simp] theorem size_mark (is : List Nat) : ∀ {marked : Array Bool} {stack : List Nat},
    (mark marked stack is).1.size = marked.size := by
  induction is with
  | nil => intro marked stack; rfl
  | cons j rest ih =>
    intro marked stack
    unfold mark
    split
    · rw [ih, Array.size_setIfInBounds]
    · exact ih

/-- A state is marked afterwards if it was before, or if it is in the list and was unmarked. -/
theorem marked_mark {is : List Nat} : ∀ {marked : Array Bool} {stack : List Nat},
    (mark marked stack is).1[i]? = some true ↔
      marked[i]? = some true ∨ (i ∈ is ∧ marked[i]? = some false) := by
  induction is with
  | nil => intro marked stack; simp [mark]
  | cons j rest ih =>
    intro marked stack
    unfold mark
    split
    · -- the state is new: marked from here on, also where it comes again later
      rename_i hj
      obtain ⟨hlt, -⟩ := Array.getElem?_eq_some_iff.1 hj
      rw [ih, Array.getElem?_setIfInBounds]
      by_cases hij : j = i
      · subst hij
        simp [hlt]
      · have hji : i ≠ j := Ne.symm hij
        simp [hij, hji]
    · rename_i hj
      rw [ih, List.mem_cons]
      constructor
      · rintro (h | ⟨h, h'⟩)
        · exact Or.inl h
        · exact Or.inr ⟨Or.inr h, h'⟩
      · rintro (h | ⟨rfl | h, h'⟩)
        · exact Or.inl h
        · exact absurd h' hj
        · exact Or.inr ⟨h, h'⟩

/-- The states that become marked go on the stack. -/
theorem mem_stack_mark {is : List Nat} : ∀ {marked : Array Bool} {stack : List Nat},
    i ∈ (mark marked stack is).2 ↔ i ∈ stack ∨ (i ∈ is ∧ marked[i]? = some false) := by
  induction is with
  | nil => intro marked stack; simp [mark]
  | cons j rest ih =>
    intro marked stack
    unfold mark
    split
    · -- the state is new and comes onto the stack once
      rename_i hj
      obtain ⟨hlt, -⟩ := Array.getElem?_eq_some_iff.1 hj
      rw [ih, Array.getElem?_setIfInBounds, List.mem_cons, List.mem_cons]
      by_cases hij : j = i
      · subst hij
        simp [hj]
      · have hji : i ≠ j := Ne.symm hij
        simp [hij, hji]
    · rename_i hj
      rw [ih, List.mem_cons]
      constructor
      · rintro (h | ⟨h, h'⟩)
        · exact Or.inl h
        · exact Or.inr ⟨Or.inr h, h'⟩
      · rintro (h | ⟨rfl | h, h'⟩)
        · exact Or.inl h
        · exact absurd h' hj
        · exact Or.inr ⟨h, h'⟩

/-- Marking keeps the number of states that are on the stack or unmarked. -/
theorem length_mark (is : List Nat) : ∀ {marked : Array Bool} {stack : List Nat},
    (mark marked stack is).2.length + (mark marked stack is).1.toList.count false =
      stack.length + marked.toList.count false := by
  induction is with
  | nil => intro marked stack; rfl
  | cons j rest ih =>
    intro marked stack
    unfold mark
    split
    · rename_i hj
      rw [← Array.getElem?_toList] at hj
      obtain ⟨hlt, hval⟩ := List.getElem?_eq_some_iff.1 hj
      have hpos : 0 < marked.toList.count false :=
        List.count_pos_iff.2 (hval ▸ List.getElem_mem hlt)
      rw [ih, List.length_cons, Array.toList_setIfInBounds, List.count_set hlt]
      simp only [hval, beq_self_eq_true, if_true, Bool.true_eq_false, beq_iff_eq, if_false]
      omega
    · exact ih

/-! ## Spreading -/

/-- What holds whenever a state is about to be taken off the stack. -/
structure Spreading (g : Graph) (seeds : List Nat) (marked : Array Bool) (stack : List Nat) :
    Prop where
  size_eq : marked.size = g.size
  pending : ∀ i ∈ stack, marked[i]? = some true
  reached : ∀ i, marked[i]? = some true → ∃ s ∈ seeds, g.Path s [] i
  seeded : ∀ s ∈ seeds, s < g.size → marked[s]? = some true
  expanded : ∀ i, marked[i]? = some true → i ∉ stack →
    ∀ j, g.Edge i .epsilon j → j < g.size → marked[j]? = some true

/-- A state that is there is marked or not. -/
theorem marked_or_not (hsize : marked.size = g.size) (hi : i < g.size) :
    marked[i]? = some true ∨ marked[i]? = some false := by
  have hlt : i < marked.size := hsize ▸ hi
  rw [Array.getElem?_eq_getElem hlt]
  cases marked[i] <;> simp

/-- The invariant holds once the seeds are marked. -/
theorem spreading_start :
    Spreading g seeds (mark (Array.replicate g.size false) [] seeds).1
      (mark (Array.replicate g.size false) [] seeds).2 := by
  have hnone : ∀ i : Nat, (Array.replicate g.size false)[i]? ≠ some true := by
    intro i h
    rw [Array.getElem?_replicate] at h
    split at h <;> simp at h
  refine ⟨by simp, fun i hi => ?_, fun i hi => ?_, fun s hs hlt => ?_, fun i hi hout => ?_⟩
  · rw [marked_mark]
    rcases mem_stack_mark.1 hi with h | h
    · exact absurd h List.not_mem_nil
    · exact Or.inr h
  · rcases marked_mark.1 hi with h | ⟨h, -⟩
    · exact absurd h (hnone i)
    · exact ⟨i, h, .nil i⟩
  · rw [marked_mark]
    exact Or.inr ⟨hs, by simp [hlt]⟩
  · rcases marked_mark.1 hi with h | h
    · exact absurd h (hnone i)
    · exact absurd (mem_stack_mark.2 (Or.inr h)) hout

/-- The invariant survives the expansion of one state. -/
theorem Spreading.step (H : Spreading g seeds marked (i :: stack)) :
    Spreading g seeds (mark marked stack (g.epsilonTargets i)).1
      (mark marked stack (g.epsilonTargets i)).2 := by
  have hi : marked[i]? = some true := H.pending i List.mem_cons_self
  refine ⟨by rw [size_mark, H.size_eq], fun k hk => ?_, fun k hk => ?_, fun s hs hlt => ?_,
    fun k hk hout j e hj => ?_⟩
  · rw [marked_mark]
    rcases mem_stack_mark.1 hk with h | h
    · exact Or.inl (H.pending k (List.mem_cons_of_mem i h))
    · exact Or.inr h
  · rcases marked_mark.1 hk with h | ⟨h, -⟩
    · exact H.reached k h
    · -- what is newly marked is one step further than the expanded state
      obtain ⟨s, hs, p⟩ := H.reached i hi
      exact ⟨s, hs, p.append (.epsilon (mem_epsilonTargets.1 h) (.nil k))⟩
  · exact marked_mark.2 (Or.inl (H.seeded s hs hlt))
  · rw [marked_mark]
    by_cases hki : k = i
    · -- the targets of the expanded state are the ones just marked
      subst hki
      rcases marked_or_not H.size_eq hj with h | h
      · exact Or.inl h
      · exact Or.inr ⟨mem_epsilonTargets.2 e, h⟩
    · -- any other state off the stack was marked and off the stack before
      rcases marked_mark.1 hk with h | h
      · refine Or.inl (H.expanded k h (fun hmem => ?_) j e hj)
        rcases List.mem_cons.1 hmem with h' | h'
        · exact hki h'
        · exact hout (mem_stack_mark.2 (Or.inl h'))
      · exact absurd (mem_stack_mark.2 (Or.inr h)) hout

/-- With a step left for every state on the stack or unmarked, the search ends with an empty
stack. -/
theorem spreading_spread {fuel : Nat} : ∀ {marked : Array Bool} {stack : List Nat},
    Spreading g seeds marked stack → stack.length + marked.toList.count false ≤ fuel →
      Spreading g seeds (g.spread fuel marked stack) [] := by
  induction fuel with
  | zero =>
    intro marked stack H hfuel
    obtain rfl : stack = [] := List.length_eq_zero_iff.1 (by omega)
    exact H
  | succ fuel ih =>
    intro marked stack H hfuel
    cases stack with
    | nil => exact H
    | cons i stack =>
      apply ih H.step
      rw [length_mark]
      rw [List.length_cons] at hfuel
      omega

/-- Once nothing waits, everything that is reached is marked. -/
theorem Spreading.marked_of_path (H : Spreading g seeds marked []) {s : Nat} {w : List UInt32}
    (p : g.Path s w i) (hw : w = []) (hi : i < g.size) (hs : marked[s]? = some true) :
    marked[i]? = some true := by
  induction p with
  | nil => exact hs
  | @epsilon s j _ _ e p ih =>
    exact ih hw hi (H.expanded s hs List.not_mem_nil j e (p.lt_size hi))
  | consume => exact absurd hw (by simp)

/-- The closure consists of the states that are reached from the seeds without consuming
anything. -/
theorem mem_closure : i ∈ g.closure seeds ↔ i < g.size ∧ ∃ s ∈ seeds, g.Path s [] i := by
  have hfuel : (mark (Array.replicate g.size false) [] seeds).2.length +
      (mark (Array.replicate g.size false) [] seeds).1.toList.count false ≤ g.size := by
    rw [length_mark]
    simp
  have H := spreading_spread spreading_start hfuel
  rw [closure]
  show i ∈ (List.range g.size).filter (fun i =>
    decide ((g.spread g.size (mark (Array.replicate g.size false) [] seeds).1
      (mark (Array.replicate g.size false) [] seeds).2)[i]? = some true)) ↔ _
  rw [List.mem_filter, List.mem_range, decide_eq_true_iff]
  constructor
  · rintro ⟨hi, hmarked⟩
    exact ⟨hi, H.reached i hmarked⟩
  · rintro ⟨hi, s, hs, p⟩
    exact ⟨hi, H.marked_of_path p rfl hi (H.seeded s hs (p.lt_size hi))⟩

/-- The closure is a part of all states in their order. -/
theorem closure_sublist : (g.closure seeds).Sublist (List.range g.size) :=
  List.filter_sublist

/-- The closure is in increasing order. -/
theorem pairwise_closure : (g.closure seeds).Pairwise (· < ·) :=
  List.pairwise_lt_range.sublist closure_sublist

end MaximalMunch.Nfa.Graph
