import Mathlib.Data.List.Shortlex
import MaximalMunch.Proofs.Dfa.Correctness

/-!
# Breadth-first numbering

Moves of an automaton are ordered by the state that they leave and then by the code point. A state
is found by the first move to it, and if the states are numbered in the order in which they are
found (`BreadthFirst`), that order is the shortlex order of words: among the words that lead to a
state the word of the first moves is the least one (`FoundBy.least`), and a state with a smaller
number has a smaller word (`FoundBy.shortlex`).

Subset construction numbers its states like that (`breadthFirst_determinize`): it expands the sets
in the order of their numbers and each of them in the order of its edges, so a set that is new gets
its number from the first edge that leads to it.
-/

namespace MaximalMunch

/-! ## Shortlex order -/

section Shortlex

variable {u v w : List UInt32}

/-- Words of one length are in order if they are so before something is appended. -/
theorem lex_append (h : List.Lex (· < ·) u v) (hlength : u.length = v.length)
    (s t : List UInt32) : List.Lex (· < ·) (u ++ s) (v ++ t) := by
  induction h with
  | nil => exact absurd hlength (by simp)
  | cons _ ih => exact .cons (ih (Nat.succ.inj hlength))
  | rel hlt => exact .rel hlt

/-- One more code point each does not change the order of two words. -/
theorem shortlex_append_singleton (h : List.Shortlex (· < ·) u v) (a b : UInt32) :
    List.Shortlex (· < ·) (u ++ [a]) (v ++ [b]) := by
  rcases List.shortlex_def.1 h with hlt | ⟨heq, hlex⟩
  · apply List.Shortlex.of_length_lt
    rw [List.length_append, List.length_append]
    exact Nat.add_lt_add_right hlt 1
  · apply List.Shortlex.of_lex
    · rw [List.length_append, List.length_append, heq]
      rfl
    · exact lex_append hlex heq [a] [b]

/-- Words are in order by length first, and this order is transitive. -/
theorem shortlex_trans (huv : List.Shortlex (· < ·) u v) (hvw : List.Shortlex (· < ·) v w) :
    List.Shortlex (· < ·) u w := by
  rcases List.shortlex_def.1 huv with hlt | ⟨heq, hlex⟩
  · rcases List.shortlex_def.1 hvw with hlt' | ⟨heq', -⟩
    · exact .of_length_lt (Nat.lt_trans hlt hlt')
    · exact .of_length_lt (heq' ▸ hlt)
  · rcases List.shortlex_def.1 hvw with hlt' | ⟨heq', hlex'⟩
    · exact .of_length_lt (heq ▸ hlt')
    · exact .of_lex (heq.trans heq') (List.lt_trans hlex hlex')

end Shortlex

namespace Dfa

variable {d : Dfa} {p p' q q' i j : Nat} {cp cp' : UInt32} {u w : List UInt32}

/-! ## First moves -/

/-- The move from `p` by `cp` comes before the move from `p'` by `cp'`. -/
def MoveBefore (p : Nat) (cp : UInt32) (p' : Nat) (cp' : UInt32) : Prop :=
  p < p' ∨ p = p' ∧ cp < cp'

/-- Of two different moves one comes before the other. -/
theorem moveBefore_or_eq_or_moveBefore (p : Nat) (cp : UInt32) (p' : Nat) (cp' : UInt32) :
    MoveBefore p cp p' cp' ∨ (p = p' ∧ cp = cp') ∨ MoveBefore p' cp' p cp := by
  unfold MoveBefore
  rw [UInt32.lt_iff_toNat_lt, UInt32.lt_iff_toNat_lt, ← UInt32.toNat_inj]
  omega

/-- A move to the state `q` such that all moves before it lead to states with smaller numbers. -/
structure FirstMove (d : Dfa) (p : Nat) (cp : UInt32) (q : Nat) : Prop where
  next : d.next p cp = some q
  before : ∀ ⦃p' cp' q'⦄, MoveBefore p' cp' p cp → d.next p' cp' = some q' → q' < q

/-- The states are numbered in the order in which first moves lead to them. -/
def BreadthFirst (d : Dfa) : Prop :=
  ∀ ⦃q⦄, 0 < q → q < d.size → ∃ p cp, p < q ∧ d.FirstMove p cp q

/-- Smaller numbers have earlier first moves. -/
theorem FirstMove.moveBefore (h : d.FirstMove p cp i) (h' : d.FirstMove p' cp' j) (hij : i < j) :
    MoveBefore p cp p' cp' := by
  rcases moveBefore_or_eq_or_moveBefore p cp p' cp' with hbefore | ⟨rfl, rfl⟩ | hbefore
  · exact hbefore
  · obtain rfl := Option.some.inj (h.next.symm.trans h'.next)
    exact absurd hij (Nat.lt_irrefl i)
  · exact absurd (h.before hbefore h'.next) (Nat.lt_asymm hij)

/-- There is one first move to a state. -/
theorem FirstMove.unique (h : d.FirstMove p cp q) (h' : d.FirstMove p' cp' q) :
    p = p' ∧ cp = cp' := by
  rcases moveBefore_or_eq_or_moveBefore p cp p' cp' with hbefore | heq | hbefore
  · exact absurd (h'.before hbefore h.next) (Nat.lt_irrefl q)
  · exact heq
  · exact absurd (h.before hbefore h'.next) (Nat.lt_irrefl q)

/-! ## Words of first moves -/

/-- The word leads to the state by first moves only. -/
inductive FoundBy (d : Dfa) : Nat → List UInt32 → Prop
  | start : FoundBy d 0 []
  | move {p q : Nat} {u : List UInt32} {cp : UInt32} (hu : FoundBy d p u) (hq : 0 < q)
      (h : d.FirstMove p cp q) : FoundBy d q (u ++ [cp])

/-- The last code point of a word is the last move. -/
theorem follow_append_singleton (d : Dfa) (q : Nat) (u : List UInt32) (cp : UInt32) :
    d.follow q (u ++ [cp]) = (d.follow q u).bind fun p => d.next p cp := by
  simp only [follow, List.foldlM_append, List.foldlM_cons, List.foldlM_nil, bind_pure]
  rfl

/-- Only states have moves. -/
theorem lt_size_of_next (h : d.next p cp = some q) : p < d.size := by
  apply Nat.lt_of_not_le
  intro hle
  rw [next, Array.getElem?_eq_none hle] at h
  exact absurd h (by simp)

/-- The word by which a state is found leads to it. -/
theorem FoundBy.follow (h : d.FoundBy q w) : d.follow d.start w = some q := by
  induction h with
  | start => rfl
  | move hu hq hfirst ih =>
    rw [follow_append_singleton, ih]
    exact hfirst.next

/-- Every state is found. -/
theorem BreadthFirst.exists_foundBy (hd : d.BreadthFirst) (hq : q < d.size) :
    ∃ w, d.FoundBy q w := by
  induction q using Nat.strongRecOn with
  | ind q ih =>
    rcases Nat.eq_zero_or_pos q with rfl | hpos
    · exact ⟨[], .start⟩
    · obtain ⟨p, cp, hpq, hfirst⟩ := hd hpos hq
      obtain ⟨u, hu⟩ := ih p hpq (Nat.lt_trans hpq hq)
      exact ⟨u ++ [cp], .move hu hpos hfirst⟩

/-- A state is found by one word. -/
theorem FoundBy.unique (h : d.FoundBy q u) (h' : d.FoundBy q w) : u = w := by
  induction h generalizing w with
  | start =>
    cases h' with
    | start => rfl
    | move _ hq _ => exact absurd hq (Nat.lt_irrefl 0)
  | move _ hq hfirst ih =>
    cases h' with
    | start => exact absurd hq (Nat.lt_irrefl 0)
    | move hu' _ hfirst' =>
      obtain ⟨rfl, rfl⟩ := hfirst.unique hfirst'
      rw [ih hu']

/-- A smaller number is found by a smaller word. -/
theorem FoundBy.shortlex (hu : d.FoundBy i u) (hw : d.FoundBy j w) (hij : i < j) :
    List.Shortlex (· < ·) u w := by
  induction hw generalizing i u with
  | start => exact absurd hij (Nat.not_lt_zero i)
  | @move p j w cp hw hj hfirst ih =>
    cases hu with
    | start => exact .of_length_lt (by simp)
    | @move p' _ u cp' hu hi hfirst' =>
      rcases hfirst'.moveBefore hfirst hij with hlt | ⟨rfl, hlt⟩
      · exact shortlex_append_singleton (ih hu hlt) cp' cp
      · rw [hu.unique hw]
        exact ((List.shortlex_singleton_iff cp' cp).2 hlt).append_left w

/-- No word that leads to a state is smaller than the one by which it is found. -/
theorem FoundBy.least (hd : d.BreadthFirst) (h : d.FoundBy q u)
    (hw : d.follow d.start w = some q) : u = w ∨ List.Shortlex (· < ·) u w := by
  induction w using List.reverseRecOn generalizing q u with
  | nil =>
    obtain rfl : 0 = q := Option.some.inj hw
    exact Or.inl (h.unique .start)
  | append_singleton v cp' ih =>
    rw [follow_append_singleton] at hw
    obtain ⟨p', hv, hnext⟩ := Option.bind_eq_some_iff.1 hw
    obtain ⟨v₀, hv₀⟩ := hd.exists_foundBy (lt_size_of_next hnext)
    have hle := ih hv₀ hv
    cases h with
    | start => exact Or.inr (.of_length_lt (by simp))
    | @move p _ u cp hu hq hfirst =>
      rcases moveBefore_or_eq_or_moveBefore p cp p' cp' with hbefore | ⟨rfl, rfl⟩ | hbefore
      · refine Or.inr ?_
        rcases hbefore with hlt | ⟨rfl, hlt⟩
        · -- the word leaves a later state, which already takes a greater word
          apply shortlex_append_singleton
          rcases hle with rfl | hle
          · exact hu.shortlex hv₀ hlt
          · exact shortlex_trans (hu.shortlex hv₀ hlt) hle
        · obtain rfl := hu.unique hv₀
          rcases hle with rfl | hle
          · exact ((List.shortlex_singleton_iff cp cp').2 hlt).append_left u
          · exact shortlex_append_singleton hle cp cp'
      · obtain rfl := hu.unique hv₀
        rcases hle with rfl | hle
        · exact Or.inl rfl
        · exact Or.inr (shortlex_append_singleton hle cp cp)
      · exact absurd (hfirst.before hbefore hnext) (Nat.lt_irrefl q)

/-! ## Least words -/

/-- Of the words that lead to a state the word is the least one in shortlex order. -/
def LeastWord (d : Dfa) (q : Nat) (w : List UInt32) : Prop :=
  d.follow d.start w = some q ∧
    ∀ w', d.follow d.start w' = some q → w = w' ∨ List.Shortlex (· < ·) w w'

/-- In an automaton that is numbered as it is searched, the word by which a state is found is the
least one that leads to it. -/
theorem FoundBy.leastWord (hd : d.BreadthFirst) (h : d.FoundBy q w) : d.LeastWord q w :=
  ⟨h.follow, fun _ hw' => h.least hd hw'⟩

/-- A state has one least word. -/
theorem LeastWord.unique (hu : d.LeastWord q u) (hw : d.LeastWord q w) : u = w := by
  rcases hu.2 w hw.1 with heq | hlt
  · exact heq
  · rcases hw.2 u hu.1 with heq | hgt
    · exact heq.symm
    · exact absurd hgt (Std.Asymm.asymm _ _ hlt)

/-- Every state has a least word. -/
theorem BreadthFirst.exists_leastWord (hd : d.BreadthFirst) (hq : q < d.size) :
    ∃ w, d.LeastWord q w := by
  obtain ⟨w, hw⟩ := hd.exists_foundBy hq
  exact ⟨w, hw.leastWord hd⟩

/-- States with smaller numbers have smaller least words. -/
theorem BreadthFirst.shortlex (hd : d.BreadthFirst) (hj : j < d.size) (hij : i < j)
    (hu : d.LeastWord i u) (hw : d.LeastWord j w) : List.Shortlex (· < ·) u w := by
  obtain ⟨u', hu'⟩ := hd.exists_foundBy (Nat.lt_trans hij hj)
  obtain ⟨w', hw'⟩ := hd.exists_foundBy hj
  rw [hu.unique (hu'.leastWord hd), hw.unique (hw'.leastWord hd)]
  exact hu'.shortlex hw' hij

end Dfa

/-! ## The order of the exploration -/

namespace Nfa.Graph

open MaximalMunch.Span.Tagged (Increasing)

variable {g : Graph} {found : Array (List Nat)} {rows : Array (List Dfa.Edge)} {subset : List Nat}
  {q : Nat}

/-- Some row has an edge to `q`, and the edges before it, in the same row and in the rows before,
lead to smaller numbers. -/
def FirstEdge (rows : Array (List Dfa.Edge)) (q : Nat) : Prop :=
  ∃ p before e after, p < q ∧ rows[p]? = some (before ++ e :: after) ∧ e.target = q ∧
    (∀ e' ∈ before, e'.target < q) ∧
    ∀ p' < p, ∀ row, rows[p']? = some row → ∀ e' ∈ row, e'.target < q

/-- A further row changes nothing for the numbers found before. -/
theorem FirstEdge.push (h : FirstEdge rows q) (row : List Dfa.Edge) :
    FirstEdge (rows.push row) q := by
  obtain ⟨p, before, e, after, hpq, hp, htarget, hbefore, hearlier⟩ := h
  obtain ⟨hlt, -⟩ := Array.getElem?_eq_some_iff.1 hp
  have hold : ∀ p' ≤ p, (rows.push row)[p']? = rows[p']? := by
    intro p' hp'
    rw [Array.getElem?_push, if_neg (by omega)]
  refine ⟨p, before, e, after, hpq, (hold p (Nat.le_refl p)).trans hp, htarget, hbefore, ?_⟩
  intro p' hp' row' hrow'
  exact hearlier p' hp' row' ((hold p' (Nat.le_of_lt hp')).symm.trans hrow')

/-- The edge of an arc whose set has a number. -/
def edgeOf (x : Arc × Nat) : Dfa.Edge := { x.1.toSpan with target := x.2 }

/-- A set that is found in an expansion gets its number from the first edge to it: the rows before
lead to sets that were found earlier. -/
theorem Explored.firstEdge (E : Explored g found rows) (hnext : found[rows.size]? = some subset)
    (hle : found.size ≤ q) (hlt : q < (g.expand found subset).1.size) :
    FirstEdge (rows.push (g.expand found subset).2) q := by
  obtain ⟨before, a, after, hsplit, hbefore⟩ := Numbering.exists_first_numberAll hle hlt
  have hrow : (g.expand found subset).2 =
      before.map edgeOf ++ edgeOf (a, q) :: after.map edgeOf := by
    rw [← List.map_cons, ← List.map_append, ← hsplit]
    rfl
  have hsize : rows.size < found.size := (Array.getElem?_eq_some_iff.1 hnext).1
  refine ⟨rows.size, before.map edgeOf, edgeOf (a, q), after.map edgeOf,
    Nat.lt_of_lt_of_le hsize hle, ?_, rfl, ?_, ?_⟩
  · rw [Array.getElem?_push, if_pos rfl, hrow]
  · intro e he
    obtain ⟨x, hx, rfl⟩ := List.mem_map.1 he
    exact hbefore x hx
  · intro p' hp' row hrow' e he
    rw [Array.getElem?_push, if_neg (Nat.ne_of_lt hp')] at hrow'
    obtain ⟨prior, -, hrowOf⟩ := E.row p' row hrow'
    obtain ⟨a', -, -, htarget⟩ := hrowOf.exists_arc he
    exact Nat.lt_of_lt_of_le (Array.getElem?_eq_some_iff.1 htarget).1 hle

/-- All sets but the first are numbered by the first edges to them, at the end of the exploration as
at its beginning. -/
theorem firstEdge_explore {fuel : Nat} : ∀ {found : Array (List Nat)}
    {rows : Array (List Dfa.Edge)}, Explored g found rows →
      (∀ q, 0 < q → q < found.size → FirstEdge rows q) →
        ∀ q, 0 < q → q < (g.explore fuel found rows).1.size →
          FirstEdge (g.explore fuel found rows).2 q := by
  induction fuel with
  | zero => exact fun _ h => h
  | succ fuel ih =>
    intro found rows E h
    rw [explore_succ]
    split
    · exact h
    · rename_i subset hnext
      refine ih (E.step hnext) fun q hpos hlt => ?_
      rcases Nat.lt_or_ge q found.size with hq | hq
      · exact (h q hpos hq).push _
      · exact E.firstEdge hnext hq hlt

/-- The edges of a state are the row of its set. -/
theorem map_edges_determinize (hg : 0 < g.size) (names : Array String) (q : Nat) :
    (g.determinize names).states[q]?.map (·.edges) =
      (g.explore (1 <<< g.size) #[g.closure [0]] #[]).2[q]? := by
  have hfuel : 1 <<< g.size ≤ (#[] : Array (List Dfa.Edge)).size + 1 <<< g.size := by simp
  obtain ⟨-, hsize⟩ := explored_explore (explored_start (g := g)) hfuel
  rw [determinize_eq_explore hg]
  generalize g.explore (1 <<< g.size) #[g.closure [0]] #[] = result at hsize
  show (result.1.mapIdx _)[q]?.map _ = _
  rw [Array.getElem?_mapIdx, Option.map_map]
  by_cases hq : q < result.1.size
  · have hq' : q < result.2.size := hsize ▸ hq
    rw [Array.getElem?_eq_getElem hq, Array.getElem?_eq_getElem hq']
    show some (result.2.getD q []) = _
    rw [Array.getD_eq_getD_getElem?, Array.getElem?_eq_getElem hq']
    rfl
  · rw [Array.getElem?_eq_none (Nat.le_of_not_lt hq),
      Array.getElem?_eq_none (hsize ▸ Nat.le_of_not_lt hq)]
    rfl

section Split

variable {s : Dfa.State} {before after : List Dfa.Edge} {e e' : Dfa.Edge} {cp : UInt32}

/-- The edges in front of an edge end below it, so its first code point is looked up in it. -/
theorem next_lo_of_edges_eq
    (h : Increasing (s.edges.map fun e => { e.toSpan with tag := (0 : UInt32) }))
    (hedges : s.edges = before ++ e :: after) : s.next e.lo = some e.target := by
  have hproper := List.forall_mem_map.1 h.proper
  have hordered := List.pairwise_map.1 h.ordered
  rw [hedges] at hproper hordered
  obtain ⟨-, -, hfront⟩ := List.pairwise_append.1 hordered
  have hbefore : before.find? (·.contains e.lo) = none := by
    apply List.find?_eq_none.2
    intro e' he' hcontains
    have hend := hfront e' he' e List.mem_cons_self
    exact absurd (Span.contains_iff.1 hcontains).2 (Nat.not_le_of_lt hend)
  have hfirst : (e :: after).find? (·.contains e.lo) = some e :=
    List.find?_cons_of_pos (Span.contains_iff.2 ⟨Nat.le_refl _, hproper e (by simp)⟩)
  rw [Dfa.State.next, hedges, List.find?_append, hbefore, Option.none_or, hfirst]
  rfl

/-- An edge that holds a smaller code point than an edge begins with can only be in front of it. -/
theorem mem_before_of_contains
    (h : Increasing (s.edges.map fun e => { e.toSpan with tag := (0 : UInt32) }))
    (hedges : s.edges = before ++ e :: after) (he' : e' ∈ s.edges) (hcp : e'.contains cp = true)
    (hlt : cp < e.lo) : e' ∈ before := by
  have hproper := List.forall_mem_map.1 h.proper
  have hordered := List.pairwise_map.1 h.ordered
  rw [hedges] at he' hproper hordered
  rw [UInt32.lt_iff_toNat_lt] at hlt
  have hlo := (Span.contains_iff.1 hcp).1
  rcases List.mem_append.1 he' with hmem | hmem
  · exact hmem
  · exfalso
    obtain ⟨-, hafter, -⟩ := List.pairwise_append.1 hordered
    rcases List.mem_cons.1 hmem with rfl | hmem
    · omega
    · have hbehind : e.hi.toNat < e'.lo.toNat := (List.pairwise_cons.1 hafter).1 e' hmem
      have hspan : e.lo.toNat ≤ e.hi.toNat := hproper e (by simp)
      omega

end Split

/-- Subset construction numbers its states breadth-first. -/
theorem breadthFirst_determinize (g : Graph) (names : Array String) :
    (g.determinize names).BreadthFirst := by
  intro q hpos hlt
  rcases Nat.eq_zero_or_pos g.size with hg | hg
  · -- without states there is one state only
    rw [determinize_of_size_eq_zero hg] at hlt
    exact absurd hlt (Nat.not_lt_of_le hpos)
  · have hsize : (g.determinize names).size =
        (g.explore (1 <<< g.size) #[g.closure [0]] #[]).1.size := by
      rw [determinize_eq_explore hg]
      exact Array.size_mapIdx
    have hstart : ∀ q, 0 < q → q < #[g.closure [0]].size →
        FirstEdge (#[] : Array (List Dfa.Edge)) q := by
      intro q hpos hlt
      exact absurd hlt (Nat.not_lt_of_le hpos)
    obtain ⟨p, before, e, after, hpq, hrow, rfl, hbefore, hearlier⟩ :=
      firstEdge_explore explored_start hstart q hpos (hsize ▸ hlt)
    rw [← map_edges_determinize hg names] at hrow
    obtain ⟨s, hs, hedges⟩ := Option.map_eq_some_iff.1 hrow
    have hincreasing := increasing_edges (Array.mem_of_getElem? hs)
    refine ⟨p, e.lo, hpq, ?_, ?_⟩
    · rw [Dfa.next, hs]
      exact next_lo_of_edges_eq hincreasing hedges
    · intro p' cp' q' hmove hnext
      obtain ⟨s', hs', hnext⟩ := Option.bind_eq_some_iff.1 hnext
      obtain ⟨e', he', rfl⟩ := Option.map_eq_some_iff.1 hnext
      have hmem := List.mem_of_find?_eq_some he'
      rcases hmove with hlt | ⟨rfl, hlt⟩
      · refine hearlier p' hlt s'.edges ?_ e' hmem
        rw [← map_edges_determinize hg names, hs']
        rfl
      · obtain rfl := Option.some.inj (hs.symm.trans hs')
        have hcontains : e'.contains cp' = true := by simpa using List.find?_some he'
        exact hbefore e' (mem_before_of_contains hincreasing hedges hmem hcontains hlt)

end Nfa.Graph

end MaximalMunch
