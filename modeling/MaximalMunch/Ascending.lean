/-!
# Ascending lists of numbers

Finite sets of numbers are kept as strictly increasing lists. `Ascending.insert` adds one number and
`Ascending.ofList` collects any list. Both keep the order (`pairwise_insert`, `pairwise_ofList`) and
neither adds nor loses a member (`mem_insert`, `mem_ofList`).
-/

namespace MaximalMunch.Ascending

/-- Adds `n` at its place in an ascending list, unless it is there already. -/
def insert (n : Nat) : List Nat → List Nat
  | [] => [n]
  | m :: rest =>
    if n < m then n :: m :: rest
    else if n = m then m :: rest
    else m :: insert n rest

/-- The members of a list, each once, in increasing order. -/
def ofList (ns : List Nat) : List Nat :=
  ns.foldr insert []

/-- `insert` adds `n` and nothing else. -/
theorem mem_insert {k n : Nat} {ns : List Nat} : k ∈ insert n ns ↔ k = n ∨ k ∈ ns := by
  induction ns with
  | nil => simp [insert]
  | cons m rest ih =>
    simp only [insert]
    split
    · simp
    · split <;> grind

/-- The place at which `insert` puts `n` keeps the order. -/
theorem pairwise_insert {n : Nat} {ns : List Nat} (h : ns.Pairwise (· < ·)) :
    (insert n ns).Pairwise (· < ·) := by
  induction ns with
  | nil => simp [insert]
  | cons m rest ih =>
    obtain ⟨hm, hrest⟩ := List.pairwise_cons.1 h
    simp only [insert]
    split
    · refine List.pairwise_cons.2 ⟨fun k hk => ?_, h⟩
      rcases List.mem_cons.1 hk with rfl | hk
      · assumption
      · have := hm k hk
        omega
    · split
      · exact h
      · refine List.pairwise_cons.2 ⟨fun k hk => ?_, ih hrest⟩
        rcases mem_insert.1 hk with rfl | hk
        · omega
        · exact hm k hk

/-- `ofList` keeps the members. -/
theorem mem_ofList {k : Nat} {ns : List Nat} : k ∈ ofList ns ↔ k ∈ ns := by
  induction ns with
  | nil => simp [ofList]
  | cons n rest ih => simp only [ofList, List.foldr_cons, mem_insert, List.mem_cons] at *; rw [ih]

/-- Whatever the order of the given list, that of `ofList` is increasing. -/
theorem pairwise_ofList (ns : List Nat) : (ofList ns).Pairwise (· < ·) := by
  induction ns with
  | nil => simp [ofList]
  | cons n rest ih => exact pairwise_insert ih

end MaximalMunch.Ascending
