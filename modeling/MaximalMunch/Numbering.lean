/-!
# Numbering by first appearance

Values are numbered from 0 in the order in which they first appear: a value that has appeared before
keeps its number, a new one gets the next. So the values found are never repeated, a number once
given stays (`getElem?_numberAll_of_found`), each item is given the number of its key
(`getElem?_numberAll`), and the new numbers are given in increasing order
(`exists_first_numberAll`).
-/

namespace MaximalMunch.Numbering

variable {α β : Type} [BEq α]

/-- The number of a value, and all values that have appeared so far in the order of their
numbers. -/
def number (found : Array α) (a : α) : Array α × Nat :=
  match found.idxOf? a with
  | some i => (found, i)
  | none => (found.push a, found.size)

/-- The numbers of the keys of some items. -/
def numberAll (key : β → α) (found : Array α) : List β → Array α × List (β × Nat)
  | [] => (found, [])
  | b :: rest =>
    let (found, i) := number found (key b)
    let (found, numbered) := numberAll key found rest
    (found, (b, i) :: numbered)

/-! ## Numbering one value -/

variable [LawfulBEq α]

/-- A value is found at its number. -/
theorem getElem?_number (found : Array α) (a : α) :
    (number found a).1[(number found a).2]? = some a := by
  unfold number
  split
  · rename_i i h
    obtain ⟨found⟩ := found
    rw [List.idxOf?_toArray] at h
    obtain ⟨hlt, heq, -⟩ := List.idxOf?_eq_some_iff.1 h
    rw [← Array.getElem?_toList, List.getElem?_eq_getElem hlt, heq]
  · simp

omit [LawfulBEq α] in
/-- Values found before keep their numbers. -/
theorem getElem?_number_of_found {found : Array α} {a b : α} {i : Nat} (h : found[i]? = some b) :
    (number found a).1[i]? = some b := by
  unfold number
  split
  · exact h
  · obtain ⟨hlt, rfl⟩ := Array.getElem?_eq_some_iff.1 h
    rw [Array.getElem?_push_lt hlt]

/-- One value is found that was not found before, or none. -/
theorem mem_number {found : Array α} {a b : α} : b ∈ (number found a).1 ↔ b ∈ found ∨ b = a := by
  unfold number
  split
  · rename_i i h
    have ha : a ∈ found := Array.isSome_idxOf?.1 (by rw [h]; rfl)
    constructor
    · exact Or.inl
    · rintro (hb | rfl)
      · exact hb
      · exact ha
  · exact Array.mem_push

/-- No value is found twice. -/
theorem nodup_number {found : Array α} (h : found.toList.Nodup) (a : α) :
    (number found a).1.toList.Nodup := by
  unfold number
  split
  · exact h
  · rename_i hnone
    have ha : a ∉ found := Array.idxOf?_eq_none_iff.1 hnone
    rw [Array.toList_push, List.nodup_append]
    refine ⟨h, by simp, ?_⟩
    intro b hb c hc hbc
    rw [List.mem_singleton] at hc
    exact ha (Array.mem_toList_iff.1 (hc ▸ hbc ▸ hb))

/-! ## Numbering the keys of items -/

variable {key : β → α}

omit [LawfulBEq α] in
/-- The first item is numbered by itself, the others after it. -/
theorem numberAll_cons (found : Array α) (b : β) (rest : List β) :
    numberAll key found (b :: rest) =
      ((numberAll key (number found (key b)).1 rest).1,
        (b, (number found (key b)).2) :: (numberAll key (number found (key b)).1 rest).2) :=
  rfl

omit [LawfulBEq α] in
/-- The items come back in their order. -/
theorem map_fst_numberAll (items : List β) : ∀ found : Array α,
    (numberAll key found items).2.map (·.1) = items := by
  induction items with
  | nil => intro found; rfl
  | cons b rest ih => intro found; rw [numberAll_cons, List.map_cons, ih]

omit [LawfulBEq α] in
/-- Values found before keep their numbers. -/
theorem getElem?_numberAll_of_found {items : List β} : ∀ {found : Array α} {a : α} {i : Nat},
    found[i]? = some a → (numberAll key found items).1[i]? = some a := by
  induction items with
  | nil => intro found a i h; exact h
  | cons b rest ih =>
    intro found a i h
    rw [numberAll_cons]
    exact ih (getElem?_number_of_found h)

/-- The key of an item is found at the number of the item. -/
theorem getElem?_numberAll {items : List β} : ∀ {found : Array α} {b : β} {i : Nat},
    (b, i) ∈ (numberAll key found items).2 →
      (numberAll key found items).1[i]? = some (key b) := by
  induction items with
  | nil => intro found b i h; simp [numberAll] at h
  | cons c rest ih =>
    intro found b i h
    rw [numberAll_cons] at h ⊢
    rcases List.mem_cons.1 h with h | h
    · obtain ⟨rfl, rfl⟩ := Prod.mk.inj h
      exact getElem?_numberAll_of_found (getElem?_number found (key b))
    · exact ih h

/-- The values found are those found before and the keys. -/
theorem mem_numberAll {items : List β} : ∀ {found : Array α} {a : α},
    a ∈ (numberAll key found items).1 ↔ a ∈ found ∨ ∃ b ∈ items, key b = a := by
  induction items with
  | nil => intro found a; simp [numberAll]
  | cons c rest ih =>
    intro found a
    rw [numberAll_cons, ih, mem_number, or_assoc, eq_comm]
    simp

omit [LawfulBEq α] in
/-- There are at most as many values as values found before and items. -/
theorem size_numberAll_le (items : List β) : ∀ found : Array α,
    (numberAll key found items).1.size ≤ found.size + items.length := by
  induction items with
  | nil => intro found; exact Nat.le_refl _
  | cons c rest ih =>
    intro found
    have hsize : (number found (key c)).1.size ≤ found.size + 1 := by
      unfold number
      split
      · exact Nat.le_succ _
      · exact Nat.le_of_eq (Array.size_push _)
    refine Nat.le_trans (ih (number found (key c)).1) ?_
    rw [List.length_cons]
    omega

/-- No value is found twice. -/
theorem nodup_numberAll {items : List β} : ∀ {found : Array α}, found.toList.Nodup →
    (numberAll key found items).1.toList.Nodup := by
  induction items with
  | nil => intro found h; exact h
  | cons c rest ih =>
    intro found h
    rw [numberAll_cons]
    exact ih (nodup_number h (key c))

omit [LawfulBEq α] in
/-- Only the value at hand can be new, and then its number is the next one. -/
theorem number_eq_of_size_lt {found : Array α} {a : α}
    (h : found.size < (number found a).1.size) :
    (number found a).2 = found.size ∧ (number found a).1.size = found.size + 1 := by
  unfold number at h ⊢
  split at h
  · exact absurd h (Nat.lt_irrefl _)
  · exact ⟨rfl, Array.size_push _⟩

/-- A new number goes to the first item whose key has not been found, and the items before that one
have smaller numbers. -/
theorem exists_first_numberAll {items : List β} : ∀ {found : Array α} {n : Nat}, found.size ≤ n →
    n < (numberAll key found items).1.size → ∃ before b after,
      (numberAll key found items).2 = before ++ (b, n) :: after ∧ ∀ x ∈ before, x.2 < n := by
  induction items with
  | nil =>
    intro found n hle hlt
    exact absurd hlt (Nat.not_lt_of_le hle)
  | cons c rest ih =>
    intro found n hle hlt
    rw [numberAll_cons] at hlt ⊢
    by_cases hn : n < (number found (key c)).1.size
    · -- the first item is the one that brings the number in
      obtain ⟨hnumber, hsize⟩ := number_eq_of_size_lt (Nat.lt_of_le_of_lt hle hn)
      have heq : (number found (key c)).2 = n := by omega
      exact ⟨[], c, _, by rw [heq, List.nil_append], fun x hx => absurd hx List.not_mem_nil⟩
    · obtain ⟨before, b, after, hsplit, hbefore⟩ := ih (Nat.le_of_not_lt hn) hlt
      have hfirst : (number found (key c)).2 < (number found (key c)).1.size :=
        (Array.getElem?_eq_some_iff.1 (getElem?_number found (key c))).1
      refine ⟨_ :: before, b, after, by rw [hsplit, List.cons_append], ?_⟩
      exact List.forall_mem_cons.2 ⟨Nat.lt_of_lt_of_le hfirst (Nat.le_of_not_lt hn), hbefore⟩

end MaximalMunch.Numbering
