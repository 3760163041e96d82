import MaximalMunch.Proofs.Nfa.Fragments

/-!
# One of several fragments

Several graphs are joined by laying them out one after the other (`Graph.placed`) and leading into
each of them from a common start (`Graph.branch`). `Graph.alternatives` leads from their exits to a
common one besides; it spells the union of their languages (`Spells.alternatives`).
-/

namespace MaximalMunch.Nfa.Graph

variable {g : Graph} {i j k : Nat} {l : Label} {w : List UInt32}

/-! ## Graphs one after the other -/

/-- Some graphs laid out one after the other from an offset on, each with its own offset. -/
def placed (offset : Nat) : List Graph → List (Nat × Graph)
  | [] => []
  | part :: rest => (offset, part) :: placed (offset + part.size) rest

theorem totalSize_cons (part : Graph) (rest : List Graph) :
    totalSize (part :: rest) = part.size + totalSize rest := rfl

/-- Fragments that run one after the other have the states of all of them. -/
theorem size_foldl_chain (parts : List Graph) : ∀ g : Graph,
    (parts.foldl Graph.chain g).size = g.size + totalSize parts := by
  induction parts with
  | nil => intro g; rfl
  | cons part rest ih =>
    intro g
    rw [List.foldl_cons, ih, size_chain, totalSize_cons, Nat.add_assoc]

/-- A placed graph lies between the offset and the end, and it is one of the graphs. -/
theorem bounds_of_mem_placed {parts : List Graph} : ∀ {offset o : Nat} {part : Graph},
    (o, part) ∈ placed offset parts →
      offset ≤ o ∧ o + part.size ≤ offset + totalSize parts ∧ part ∈ parts := by
  induction parts with
  | nil => intro offset o part h; exact absurd h List.not_mem_nil
  | cons first rest ih =>
    intro offset o part h
    rw [totalSize_cons]
    rcases List.mem_cons.1 h with h | h
    · obtain ⟨rfl, rfl⟩ := Prod.mk.inj h
      exact ⟨Nat.le_refl o, by omega, List.mem_cons_self⟩
    · obtain ⟨hlo, hhi, hmem⟩ := ih h
      exact ⟨by omega, by omega, List.mem_cons_of_mem first hmem⟩

/-- Every one of the graphs is placed. -/
theorem exists_mem_placed {parts : List Graph} {part : Graph} : ∀ offset : Nat, part ∈ parts →
    ∃ o, (o, part) ∈ placed offset parts := by
  induction parts with
  | nil => intro offset h; exact absurd h List.not_mem_nil
  | cons first rest ih =>
    intro offset h
    rcases List.mem_cons.1 h with rfl | h
    · exact ⟨offset, List.mem_cons_self⟩
    · obtain ⟨o, ho⟩ := ih (offset + first.size) h
      exact ⟨o, List.mem_cons_of_mem _ ho⟩

/-- Placed graphs do not overlap. -/
theorem eq_of_mem_placed {parts : List Graph} : ∀ {offset o o' n n' : Nat} {part part' : Graph},
    (o, part) ∈ placed offset parts → (o', part') ∈ placed offset parts →
      n < part.size → n' < part'.size → o + n = o' + n' → o = o' ∧ part = part' ∧ n = n' := by
  induction parts with
  | nil => intro offset o o' n n' part part' h; exact absurd h List.not_mem_nil
  | cons first rest ih =>
    intro offset o o' n n' part part' h h' hn hn' heq
    -- the first graph ends where the others begin
    rcases List.mem_cons.1 h with h | h <;> rcases List.mem_cons.1 h' with h' | h'
    · obtain ⟨rfl, rfl⟩ := Prod.mk.inj h
      obtain ⟨rfl, rfl⟩ := Prod.mk.inj h'
      exact ⟨rfl, rfl, Nat.add_left_cancel heq⟩
    · obtain ⟨rfl, rfl⟩ := Prod.mk.inj h
      have := (bounds_of_mem_placed h').1
      omega
    · obtain ⟨rfl, rfl⟩ := Prod.mk.inj h'
      have := (bounds_of_mem_placed h).1
      omega
    · exact ih h h' hn hn' heq

/-- Every index behind the offset is that of a state of a placed graph. -/
theorem exists_placed_of_lt {parts : List Graph} {n : Nat} : ∀ {offset : Nat}, offset ≤ n →
    n < offset + totalSize parts →
      ∃ o part i, (o, part) ∈ placed offset parts ∧ i < part.size ∧ n = o + i := by
  induction parts with
  | nil =>
    intro offset hlo hhi
    simp only [totalSize] at hhi
    omega
  | cons first rest ih =>
    intro offset hlo hhi
    rw [totalSize_cons] at hhi
    by_cases hn : n < offset + first.size
    · exact ⟨offset, first, n - offset, List.mem_cons_self, by omega, by omega⟩
    · obtain ⟨o, part, i, hmem, h⟩ :=
        ih (Nat.le_of_not_lt hn) (by omega : n < offset + first.size + totalSize rest)
      exact ⟨o, part, i, List.mem_cons_of_mem _ hmem, h⟩

/-! ## Branches from a common start -/

/-- Appends graphs one after the other, each of them entered from the state at index 0. -/
def branch (g : Graph) (parts : List Graph) : Graph :=
  parts.foldl (fun g part => (g.append part).connectEpsilon 0 g.size) g

theorem branch_cons (g part : Graph) (rest : List Graph) :
    g.branch (part :: rest) = ((g.append part).connectEpsilon 0 g.size).branch rest := rfl

@[simp] theorem size_branch (parts : List Graph) : ∀ g : Graph,
    (g.branch parts).size = g.size + totalSize parts := by
  induction parts with
  | nil => intro g; rfl
  | cons part rest ih =>
    intro g
    rw [branch_cons, ih, size_connectEpsilon, size_append, totalSize_cons, Nat.add_assoc]

/-- The new edges are those of the parts and one into each part. -/
theorem edge_branch {parts : List Graph} : ∀ {g : Graph}, 0 < g.size →
    ((g.branch parts).Edge i l j ↔ g.Edge i l j ∨ ∃ o part, (o, part) ∈ placed g.size parts ∧
      ((i = 0 ∧ l = .epsilon ∧ j = o) ∨
        ∃ i' j', i = o + i' ∧ j = o + j' ∧ part.Edge i' l j')) := by
  induction parts with
  | nil => intro g _; simp [branch, placed]
  | cons first rest ih =>
    intro g hg
    have hsize : (g.append first).size = g.size + first.size := size_append
    rw [branch_cons, ih (by rw [size_connectEpsilon, hsize]; omega),
      edge_connectEpsilon (by rw [hsize]; omega), edge_append, size_connectEpsilon, hsize]
    constructor
    · rintro (((h | h) | h) | ⟨o, part, hmem, h⟩)
      · exact Or.inl h
      · exact Or.inr ⟨g.size, first, List.mem_cons_self, Or.inr h⟩
      · exact Or.inr ⟨g.size, first, List.mem_cons_self, Or.inl h⟩
      · exact Or.inr ⟨o, part, List.mem_cons_of_mem _ hmem, h⟩
    · rintro (h | ⟨o, part, hmem, h⟩)
      · exact Or.inl (Or.inl (Or.inl h))
      · rcases List.mem_cons.1 hmem with heq | hmem
        · obtain ⟨rfl, rfl⟩ := Prod.mk.inj heq
          rcases h with h | h
          · exact Or.inl (Or.inr h)
          · exact Or.inl (Or.inl (Or.inr h))
        · exact Or.inr ⟨o, part, hmem, h⟩

/-- No edge leaves a branch. -/
theorem houses_branch {parts : List Graph} {id o : Nat} {part : Graph}
    (hmem : (o, part) ∈ placed 1 parts) :
    ((empty.add { id }).branch parts).Houses part o fun _ => False := by
  intro i hi l j
  have hlo := (bounds_of_mem_placed hmem).1
  rw [edge_branch (by simp), edge_add]
  simp only [not_edge_empty, false_or, and_false, or_false, size_add, size_empty, Nat.zero_add]
  constructor
  · rintro ⟨o', part', hmem', ⟨hi', -⟩ | ⟨i', j', hi', rfl, e⟩⟩
    · omega
    · obtain ⟨rfl, rfl, rfl⟩ := eq_of_mem_placed hmem hmem' hi e.lt_size hi'
      exact ⟨j', rfl, e⟩
  · rintro ⟨j', rfl, e⟩
    exact ⟨o, part, hmem, Or.inr ⟨i, j', rfl, rfl, e⟩⟩

/-- The start of a branch leads to the entries of the parts. -/
theorem edge_start_branch {parts : List Graph} {id : Nat} :
    ((empty.add { id }).branch parts).Edge 0 l j ↔
      l = .epsilon ∧ ∃ part, (j, part) ∈ placed 1 parts := by
  rw [edge_branch (by simp), edge_add]
  simp only [not_edge_empty, false_or, size_add, size_empty, Nat.zero_add, true_and]
  constructor
  · rintro ⟨o, part, hmem, ⟨hl, rfl⟩ | ⟨i', j', hi', -⟩⟩
    · exact ⟨hl, part, hmem⟩
    · have := (bounds_of_mem_placed hmem).1
      omega
  · rintro ⟨rfl, part, hmem⟩
    exact ⟨j, part, hmem, Or.inl ⟨rfl, rfl⟩⟩

/-- The start of a branch has one transition for each part, in their order. -/
theorem transitions_start_branch {parts : List Graph} : ∀ {g : Graph}, 0 < g.size →
    (g.branch parts).transitions 0 =
      g.transitions 0 ++ (placed g.size parts).map fun p => ⟨.epsilon, p.1⟩ := by
  induction parts with
  | nil => intro g _; exact (List.append_nil _).symm
  | cons first rest ih =>
    intro g hg
    have hlt : 0 < (g.append first).size := size_append ▸ Nat.add_pos_left hg _
    rw [branch_cons, ih (by rwa [size_connectEpsilon]), connectEpsilon, transitions_connect hlt,
      if_pos rfl, transitions_append, if_pos hg, size_connect, size_append, List.append_assoc]
    rfl

/-- A start with branches has its edges in range if the branches have. -/
theorem InRange.branch {parts : List Graph} (hparts : ∀ part ∈ parts, 0 < part.size ∧ part.InRange)
    (id : Nat) : ((empty.add { id }).branch parts).InRange := by
  intro i l j e
  rw [edge_branch (by simp), edge_add] at e
  rcases e with e | ⟨o, part, hmem, h⟩
  · exact absurd e not_edge_empty
  · obtain ⟨-, hhi, hpart⟩ := bounds_of_mem_placed hmem
    obtain ⟨hsize, hrange⟩ := hparts part hpart
    rw [size_branch]
    rcases h with ⟨-, -, rfl⟩ | ⟨i', j', -, rfl, e'⟩
    · omega
    · have := hrange e'
      omega

/-- A path from the start to a state of a branch is a path of the part. -/
theorem path_branch {parts : List Graph} (hparts : ∀ part ∈ parts, 0 < part.size ∧ part.InRange)
    {id o : Nat} {part : Graph} (hmem : (o, part) ∈ placed 1 parts) (hi : i < part.size) :
    ((empty.add { id }).branch parts).Path 0 w (o + i) ↔ part.Path 0 w i := by
  have hlo := (bounds_of_mem_placed hmem).1
  constructor
  · intro p
    generalize hend : o + i = last at p
    cases p with
    | nil => omega
    | consume e => exact absurd (edge_start_branch.1 e).1 (by simp)
    | @epsilon _ o' _ _ e p =>
      -- the part that is entered is the one in which the path ends, for no part can be left
      obtain ⟨-, part', hmem'⟩ := edge_start_branch.1 e
      obtain ⟨hsize, hrange⟩ := hparts part' (bounds_of_mem_placed hmem').2.2
      obtain ⟨j, hj, p'⟩ := ((houses_branch hmem').path_iff hrange hsize).1 p
      obtain ⟨rfl, rfl, rfl⟩ := eq_of_mem_placed hmem hmem' hi (p'.lt_size_of_inRange hrange hsize)
        (hend.trans hj)
      exact p'
  · intro p
    obtain ⟨hsize, hrange⟩ := hparts part (bounds_of_mem_placed hmem).2.2
    exact .epsilon (edge_start_branch.2 ⟨rfl, part, hmem⟩)
      ((houses_branch hmem).path hrange p hsize)

/-- Leads from each of some indices to a target. -/
def connectAll (g : Graph) (target : Nat) (sources : List Nat) : Graph :=
  sources.foldl (fun g source => g.connectEpsilon source target) g

theorem connectAll_cons (g : Graph) (target source : Nat) (rest : List Nat) :
    g.connectAll target (source :: rest) =
      (g.connectEpsilon source target).connectAll target rest :=
  rfl

@[simp] theorem size_connectAll (target : Nat) (sources : List Nat) : ∀ g : Graph,
    (g.connectAll target sources).size = g.size := by
  induction sources with
  | nil => intro g; rfl
  | cons source rest ih => intro g; rw [connectAll_cons, ih, size_connectEpsilon]

/-- The edges after some states are connected with a target. -/
theorem edge_connectAll {target : Nat} {sources : List Nat} : ∀ {g : Graph},
    (∀ s ∈ sources, s < g.size) →
      ((g.connectAll target sources).Edge i l j ↔
        g.Edge i l j ∨ (i ∈ sources ∧ l = .epsilon ∧ j = target)) := by
  induction sources with
  | nil => intro g _; simp [connectAll]
  | cons source rest ih =>
    intro g hlt
    rw [connectAll_cons, ih fun s hs => by rw [size_connectEpsilon]; exact hlt s (by simp [hs]),
      edge_connectEpsilon (hlt source (by simp)), List.mem_cons, or_and_right, or_assoc]

/-- The exits of some graphs are the exits of the placed graphs. -/
theorem mem_exitsFrom {parts : List Graph} : ∀ {offset : Nat},
    i ∈ exitsFrom offset parts ↔ ∃ o part, (o, part) ∈ placed offset parts ∧ i = o + part.exit := by
  induction parts with
  | nil => intro offset; simp [exitsFrom, placed]
  | cons first rest ih =>
    intro offset
    rw [exitsFrom, List.mem_cons, ih]
    constructor
    · rintro (rfl | ⟨o, part, hmem, rfl⟩)
      · exact ⟨offset, first, List.mem_cons_self, rfl⟩
      · exact ⟨o, part, List.mem_cons_of_mem _ hmem, rfl⟩
    · rintro ⟨o, part, hmem, rfl⟩
      rcases List.mem_cons.1 hmem with heq | hmem
      · obtain ⟨rfl, rfl⟩ := Prod.mk.inj heq
        exact Or.inl rfl
      · exact Or.inr ⟨o, part, hmem, rfl⟩

/-! ## Alternatives -/

section Alternatives

variable {startId exitId : Nat} {parts : List Graph}

/-- Alternatives are a start with branches, and an exit with which the exits of the branches are
connected. -/
theorem alternatives_eq (startId exitId : Nat) (parts : List Graph) :
    alternatives startId exitId parts =
      (((empty.add { id := startId }).branch parts).add { id := exitId }).connectAll
        (1 + totalSize parts) (exitsFrom 1 parts) := by
  have hsize : ((empty.add { id := startId }).branch parts).size = 1 + totalSize parts := by
    simp
  rw [← hsize]
  rfl

@[simp] theorem size_alternatives (startId exitId : Nat) (parts : List Graph) :
    (alternatives startId exitId parts).size = totalSize parts + 2 := by
  rw [alternatives_eq]
  simp only [size_connectAll, size_add, size_branch, size_empty]
  omega

/-- The exit of alternatives is their last state. -/
theorem exit_alternatives :
    (alternatives startId exitId parts).exit = 1 + totalSize parts := by
  rw [exit, size_alternatives]
  omega

/-- The edges of alternatives: into a part, inside a part, or out of it. -/
theorem edge_alternatives (hparts : ∀ part ∈ parts, 0 < part.size) :
    (alternatives startId exitId parts).Edge i l j ↔
      ∃ o part, (o, part) ∈ placed 1 parts ∧
        ((i = 0 ∧ l = .epsilon ∧ j = o) ∨ (∃ i' j', i = o + i' ∧ j = o + j' ∧ part.Edge i' l j') ∨
          (i = o + part.exit ∧ l = .epsilon ∧ j = 1 + totalSize parts)) := by
  -- the states that are connected are already there, the new exit last
  have hlt : ∀ s ∈ exitsFrom 1 parts,
      s < (((empty.add { id := startId }).branch parts).add { id := exitId }).size := by
    intro s hs
    obtain ⟨o, part, hmem, rfl⟩ := mem_exitsFrom.1 hs
    obtain ⟨-, hhi, hpart⟩ := bounds_of_mem_placed hmem
    have := exit_lt_size (hparts part hpart)
    simp only [size_add, size_branch, size_empty]
    omega
  rw [alternatives_eq, edge_connectAll hlt, edge_add, edge_branch (by simp), edge_add,
    mem_exitsFrom]
  simp only [not_edge_empty, false_or, size_add, size_empty, Nat.zero_add]
  constructor
  · rintro (⟨o, part, hmem, h⟩ | ⟨⟨o, part, hmem, rfl⟩, h⟩)
    · rcases h with h | h
      · exact ⟨o, part, hmem, Or.inl h⟩
      · exact ⟨o, part, hmem, Or.inr (Or.inl h)⟩
    · exact ⟨o, part, hmem, Or.inr (Or.inr ⟨rfl, h⟩)⟩
  · rintro ⟨o, part, hmem, h | h | ⟨rfl, h⟩⟩
    · exact Or.inl ⟨o, part, hmem, Or.inl h⟩
    · exact Or.inl ⟨o, part, hmem, Or.inr h⟩
    · exact Or.inr ⟨⟨o, part, hmem, rfl⟩, h⟩

/-- Each alternative has one way out, to the new exit. -/
theorem houses_alternatives (hparts : ∀ part ∈ parts, 0 < part.size) {o : Nat} {part : Graph}
    (hmem : (o, part) ∈ placed 1 parts) :
    (alternatives startId exitId parts).Houses part o (· = 1 + totalSize parts) := by
  intro i hi l j
  rw [edge_alternatives hparts]
  constructor
  · rintro ⟨o', part', hmem', ⟨hi', -⟩ | ⟨i', j', hi', rfl, e⟩ | ⟨hi', hl, hj⟩⟩
    · have := (bounds_of_mem_placed hmem).1
      omega
    · obtain ⟨rfl, rfl, rfl⟩ := eq_of_mem_placed hmem hmem' hi e.lt_size hi'
      exact Or.inl ⟨j', rfl, e⟩
    · have hexit := exit_lt_size (hparts part' (bounds_of_mem_placed hmem').2.2)
      obtain ⟨rfl, rfl, rfl⟩ := eq_of_mem_placed hmem hmem' hi hexit hi'
      exact Or.inr ⟨rfl, hl, hj⟩
  · rintro (⟨j', rfl, e⟩ | ⟨rfl, hl, hj⟩)
    · exact ⟨o, part, hmem, Or.inr (Or.inl ⟨i, j', rfl, rfl, e⟩)⟩
    · exact ⟨o, part, hmem, Or.inr (Or.inr ⟨rfl, hl, hj⟩)⟩

/-- The new start leads to the entries of the parts. -/
theorem edge_start_alternatives (hparts : ∀ part ∈ parts, 0 < part.size) :
    (alternatives startId exitId parts).Edge 0 l j ↔
      l = .epsilon ∧ ∃ part, (j, part) ∈ placed 1 parts := by
  rw [edge_alternatives hparts]
  constructor
  · rintro ⟨o, part, hmem, ⟨-, hl, rfl⟩ | ⟨i', j', hi, -⟩ | ⟨hi, -⟩⟩
    · exact ⟨hl, part, hmem⟩
    · have := (bounds_of_mem_placed hmem).1
      omega
    · have := (bounds_of_mem_placed hmem).1
      omega
  · rintro ⟨rfl, part, hmem⟩
    exact ⟨j, part, hmem, Or.inl ⟨rfl, rfl, rfl⟩⟩

/-- Nothing leads on from the new exit. -/
theorem not_edge_exit_alternatives (hparts : ∀ part ∈ parts, 0 < part.size) :
    ¬ (alternatives startId exitId parts).Edge (1 + totalSize parts) l j := by
  intro e
  obtain ⟨o, part, hmem, h⟩ := (edge_alternatives hparts).1 e
  obtain ⟨-, hhi, hpart⟩ := bounds_of_mem_placed hmem
  rcases h with ⟨hi, -⟩ | ⟨i', j', hi, -, e'⟩ | ⟨hi, -⟩
  · omega
  · have := e'.lt_size
    omega
  · have := exit_lt_size (hparts part hpart)
    omega

/-- A path through the alternatives is a path through one of them. -/
theorem path_alternatives (hparts : ∀ part ∈ parts, 0 < part.size ∧ part.InRange) :
    (alternatives startId exitId parts).Path 0 w (1 + totalSize parts) ↔
      ∃ part ∈ parts, part.Path 0 w part.exit := by
  have hpos : ∀ part ∈ parts, 0 < part.size := fun part h => (hparts part h).1
  constructor
  · intro p
    generalize hend : 1 + totalSize parts = last at p
    cases p with
    | nil => omega
    | consume e => exact absurd ((edge_start_alternatives hpos).1 e).1 (by simp)
    | epsilon e p =>
      obtain ⟨-, part, hmem⟩ := (edge_start_alternatives hpos).1 e
      obtain ⟨-, hhi, hpart⟩ := bounds_of_mem_placed hmem
      obtain ⟨hsize, hrange⟩ := hparts part hpart
      rcases (houses_alternatives hpos hmem).path_cases hrange p hsize with
        ⟨j, hj, p'⟩ | ⟨u, v, t, rfl, p', rfl, q⟩
      · -- the new exit is in no part
        have := p'.lt_size_of_inRange hrange hsize
        omega
      · -- the part is left for the new exit, where every path ends
        subst hend
        obtain ⟨rfl, -⟩ := q.eq_nil fun _ _ => not_edge_exit_alternatives hpos
        rw [List.append_nil]
        exact ⟨part, hpart, p'⟩
  · rintro ⟨part, hpart, p⟩
    obtain ⟨hsize, hrange⟩ := hparts part hpart
    obtain ⟨o, hmem⟩ := exists_mem_placed 1 hpart
    have hin : (alternatives startId exitId parts).Edge 0 .epsilon (o + 0) :=
      (edge_start_alternatives hpos).2 ⟨rfl, part, hmem⟩
    have hout : (alternatives startId exitId parts).Edge (o + part.exit) .epsilon
        (1 + totalSize parts) :=
      (edge_alternatives hpos).2 ⟨o, part, hmem, Or.inr (Or.inr ⟨rfl, rfl, rfl⟩)⟩
    have q := ((houses_alternatives hpos hmem).path hrange p hsize).append (.epsilon hout (.nil _))
    rw [List.append_nil] at q
    exact .epsilon hin q

/-- Alternatives have their edges in range if the parts have. -/
theorem InRange.alternatives (hparts : ∀ part ∈ parts, 0 < part.size ∧ part.InRange)
    (startId exitId : Nat) : (alternatives startId exitId parts).InRange := by
  intro i l j e
  obtain ⟨o, part, hmem, h⟩ := (edge_alternatives fun part h => (hparts part h).1).1 e
  obtain ⟨-, hhi, hpart⟩ := bounds_of_mem_placed hmem
  obtain ⟨hsize, hrange⟩ := hparts part hpart
  rw [size_alternatives]
  rcases h with ⟨-, -, rfl⟩ | ⟨i', j', -, rfl, e'⟩ | ⟨-, -, rfl⟩
  · omega
  · have := hrange e'
    omega
  · omega

/-- A word is in a sum of languages if it is in one of them. -/
theorem mem_languageSum {languages : List (Language UInt32)} :
    w ∈ languages.sum ↔ ∃ L ∈ languages, w ∈ L := by
  induction languages with
  | nil => simp
  | cons L rest ih => rw [List.sum_cons, Language.mem_add, ih]; simp

/-- Parts that spell languages have states and are closed. -/
theorem size_pos_and_inRange_of_spells {languages : List (Language UInt32)}
    (H : List.Forall₂ Spells parts languages) : ∀ part ∈ parts, 0 < part.size ∧ part.InRange := by
  induction H with
  | nil => intro part h; exact absurd h List.not_mem_nil
  | cons hfirst _ ih =>
    intro part h
    rcases List.mem_cons.1 h with rfl | h
    · exact ⟨hfirst.size_pos, hfirst.inRange⟩
    · exact ih part h

/-- A path through one of the parts is a word of one of the languages. -/
theorem exists_path_iff_of_spells {languages : List (Language UInt32)}
    (H : List.Forall₂ Spells parts languages) :
    (∃ part ∈ parts, part.Path 0 w part.exit) ↔ ∃ L ∈ languages, w ∈ L := by
  induction H with
  | nil => simp
  | cons hfirst _ ih =>
    rw [List.exists_mem_cons_iff, List.exists_mem_cons_iff, hfirst.path_iff, ih]

/-- Alternatives spell the sum of what the parts spell. -/
theorem Spells.alternatives {languages : List (Language UInt32)}
    (H : List.Forall₂ Spells parts languages) (startId exitId : Nat) :
    (alternatives startId exitId parts).Spells languages.sum where
  size_pos := by simp
  inRange := .alternatives (size_pos_and_inRange_of_spells H) startId exitId
  path_iff w := by
    rw [exit_alternatives, path_alternatives (size_pos_and_inRange_of_spells H),
      exists_path_iff_of_spells H, mem_languageSum]

end Alternatives

end MaximalMunch.Nfa.Graph
