import MaximalMunch.Proofs.Dfa.Edges
import MaximalMunch.Proofs.Dfa.Liveness
import MaximalMunch.Proofs.Tables.Lookup

/-!
# Correctness of subset construction

A run of the deterministic automaton ends in the state of all states that the graph reaches on the
same code points (`determinize_follows_paths`). The edges of a state are in increasing order
(`increasing_edges`), so it makes no difference whether the edge of a code point is looked for from
the first edge on or by bisection (`next_eq_bisectNext`).
-/

namespace MaximalMunch

open MaximalMunch.Span.Tagged (Increasing)

/-! ## Bisecting edges -/

/-- The edges of a state as ranges, all with the same class. -/
def Dfa.State.ranges (s : Dfa.State) : Array ClassRange :=
  (s.edges.map fun e => { e.toSpan with classId := 0 }).toArray

/-- Where a code point leads from a state, if its edge is looked for by bisection. -/
def Dfa.State.bisectNext (s : Dfa.State) (cp : UInt32) : Option Nat := do
  let e ← s.edges[bisect s.ranges cp 0 s.edges.length]?
  if e.contains cp then some e.target else none

/-- Edges in increasing order can be bisected. -/
theorem Dfa.State.next_eq_bisectNext {s : Dfa.State}
    (h : Increasing (s.edges.map fun e => { e.toSpan with tag := (0 : UInt32) }))
    (cp : UInt32) : s.next cp = s.bisectNext cp := by
  have hfind := find?_eq_bisect (fun e : Dfa.Edge => { e.toSpan with tag := (0 : UInt32) }) h cp
  rw [List.map_map] at hfind
  rw [next, bisectNext]
  refine (congrArg (Option.map (·.target)) hfind).trans ?_
  show (s.edges[bisect s.ranges cp 0 s.edges.length]?.filter (·.contains cp)).map (·.target) = _
  cases s.edges[bisect s.ranges cp 0 s.edges.length]? with
  | none => rfl
  | some e =>
    show (Option.filter (·.contains cp) (some e)).map (·.target) =
      if e.contains cp = true then some e.target else none
    rw [Option.filter_some]
    split <;> rfl

namespace Nfa.Graph

variable {g : Graph} {names : Array String}

/-- The edges of a row have the spans of the arcs. -/
theorem RowOf.map_toSpan {found : Array (List Nat)} {subset : List Nat} {row : List Dfa.Edge}
    (h : g.RowOf found subset row) :
    row.map (·.toSpan) = (g.arcs subset).map (·.toSpan) := by
  rw [RowOf] at h
  generalize g.arcs subset = arcs at h
  induction h with
  | nil => rfl
  | cons hae _ ih => rw [List.map_cons, List.map_cons, ih, hae.1]

/-- The edges of a state are in increasing order. -/
theorem increasing_edges {s : Dfa.State} (hs : s ∈ (g.determinize names).states) :
    Increasing (s.edges.map fun e => { e.toSpan with tag := (0 : UInt32) }) := by
  refine ⟨List.forall_mem_map.2 fun e he => (exists_edge_of_mem_edges hs he).1, ?_⟩
  have hordered : (s.edges.map (·.toSpan)).Pairwise fun r t => r.hi.toNat < t.lo.toNat := by
    rcases Nat.eq_zero_or_pos g.size with hg | hg
    · rw [determinize_of_size_eq_zero hg] at hs
      rw [List.mem_singleton.1 (Array.mem_toList_iff.2 hs)]
      exact .nil
    · obtain ⟨sets, D⟩ := exists_determinized hg names
      obtain ⟨q, hq⟩ := Array.getElem?_of_mem hs
      obtain ⟨subset, -, -, -, hrow⟩ := D.exists_set hq
      rw [hrow.map_toSpan]
      exact List.pairwise_map.2 (increasing_arcs _).ordered
  exact List.pairwise_map.2 (List.pairwise_map.1 hordered)

/-! ## Runs and paths -/

/-- The ids of a set are sorted. -/
theorem pairwise_idsOf (subset : List Nat) : (g.idsOf subset).Pairwise (· ≤ ·) := by
  have htrans : ∀ a b c : Nat, decide (a ≤ b) = true → decide (b ≤ c) = true →
      decide (a ≤ c) = true := by
    simpa using fun a b c => Nat.le_trans
  have htotal : ∀ a b : Nat, (decide (a ≤ b) || decide (b ≤ a)) = true := by
    simpa using Nat.le_total
  exact (List.pairwise_mergeSort htrans htotal _).imp of_decide_eq_true

/-- A run on some code points ends in the state of the set that paths with these code points
reach. -/
theorem exists_reached_of_follow (hg : 0 < g.size) (hrange : g.InRange) {w : List UInt32} {q : Nat}
    (hq : (g.determinize names).follow 0 w = some q) :
    ∃ s, ∃ reached : List Nat, (g.determinize names).states[q]? = some s ∧
      reached.Pairwise (· < ·) ∧ (∀ i, i ∈ reached ↔ g.Path 0 w i) ∧
      s.subset = g.idsOf reached := by
  obtain ⟨sets, D⟩ := exists_determinized hg names
  obtain ⟨reached, hreached, hmem⟩ := (D.follow w D.start).1 q hq
  obtain ⟨s, hs, hsubset, -⟩ := D.state q reached hreached
  refine ⟨s, reached, hs, ?_, fun i => (hmem i).trans ⟨?_, fun p => ?_⟩, hsubset⟩
  · obtain ⟨seeds, rfl⟩ := (D.reached reached (Array.mem_of_getElem? hreached)).exists_closure
    exact pairwise_closure
  · rintro ⟨hi, hpath⟩
    exact (exists_path_closure_iff hi).1 hpath
  · have hi := p.lt_size_of_inRange hrange hg
    exact ⟨hi, (exists_path_closure_iff hi).2 p⟩

/-- What a state accepts for, in terms of the state. -/
theorem marks_eq_some_true_iff {i : Nat} {owners : List Nat} :
    g.marks i = some (true, owners) ↔
      ∃ n, g.states[i]? = some n ∧ n.accepting = true ∧ n.owners = owners := by
  rw [marks, Option.map_eq_some_iff]
  simp only [Prod.mk.injEq]

/-- A run on some code points exists if the graph has a path with these code points from its entry.
It ends in the state of all states that such paths reach: its subset has their ids in order, and its
candidates are the owners of the accepting ones among them, each once and in increasing order. -/
theorem determinize_follows_paths (hg : 0 < g.size) (hrange : g.InRange) (names : Array String)
    (w : List UInt32) :
    let d := g.determinize names
    ((d.follow d.start w).isSome = true ↔ ∃ i, g.Path 0 w i) ∧
      (∀ q, d.follow d.start w = some q → ∃ s, ∃ reached : List Nat, d.states[q]? = some s ∧
        reached.Pairwise (· < ·) ∧ (∀ i, i ∈ reached ↔ g.Path 0 w i) ∧
        s.subset.Pairwise (· ≤ ·) ∧
        s.subset.Perm (reached.filterMap fun i => g.states[i]?.map State.id) ∧
        s.candidates.Pairwise (· < ·) ∧
        ∀ t, t ∈ s.candidates ↔ ∃ i n, g.Path 0 w i ∧ g.states[i]? = some n ∧
          n.accepting = true ∧ t ∈ n.owners) ∧
      ∀ s ∈ d.states, ∀ cp, s.next cp = s.bisectNext cp := by
  intro d
  refine ⟨(isSome_follow_iff hg hrange).trans ⟨?_, ?_⟩, fun q hq => ?_, fun s hs cp => ?_⟩
  · rintro ⟨i, -, p⟩
    exact ⟨i, p⟩
  · rintro ⟨i, p⟩
    exact ⟨i, p.lt_size_of_inRange hrange hg, p⟩
  · obtain ⟨s, reached, hs, hordered, hmem, hsubset⟩ := exists_reached_of_follow hg hrange hq
    obtain ⟨s', hs', hpairwise, hcandidates⟩ := mem_candidates_of_follow hg hq
    -- both facts are about the state that the run ends in
    obtain rfl := Option.some.inj (hs.symm.trans hs')
    refine ⟨s, reached, hs, hordered, hmem, hsubset ▸ pairwise_idsOf reached, ?_, hpairwise,
      fun t => (hcandidates t).trans ⟨?_, ?_⟩⟩
    · rw [hsubset]
      exact List.mergeSort_perm _ _
    · rintro ⟨i, owners, p, hmarks, ht⟩
      obtain ⟨n, hn, haccepting, rfl⟩ := marks_eq_some_true_iff.1 hmarks
      exact ⟨i, n, p, hn, haccepting, ht⟩
    · rintro ⟨i, n, p, hn, haccepting, ht⟩
      exact ⟨i, n.owners, p, marks_eq_some_true_iff.2 ⟨n, hn, haccepting, rfl⟩, ht⟩
  · exact Dfa.State.next_eq_bisectNext (increasing_edges hs) cp

/-- Two states that lead to each other without consuming anything, with classes that overlap and
with ids that repeat. -/
theorem determinize_follows_paths_cycle :
    let g : Graph := ⟨#[
      { id := 5, transitions := [⟨.epsilon, 1⟩, ⟨.oneOf (.ofSpans [⟨0x61, 0x63⟩]), 2⟩] },
      { id := 3, transitions := [⟨.epsilon, 0⟩, ⟨.oneOf (.ofSpans [⟨0x62, 0x64⟩]), 0⟩] },
      { id := 3, accepting := true, owners := [0, 1] }]⟩
    ∃ q s, (g.determinize #["x", "y"]).follow 0 [0x62, 0x61] = some q ∧
      (g.determinize #["x", "y"]).states[q]? = some s ∧ 1 ∈ s.candidates := by
  intro g
  have hrange : g.InRange := inRange_of_forall_mem (by decide)
  have hback : g.Edge 1 (.oneOf (.ofSpans [⟨0x62, 0x64⟩])) 0 := .tail _ (.head _)
  have hout : g.Edge 0 (.oneOf (.ofSpans [⟨0x61, 0x63⟩])) 2 := .tail _ (.head _)
  have hpath : g.Path 0 [0x62, 0x61] 2 :=
    .epsilon (.head _) (.consume hback (by cbv) (.consume hout (by cbv) (.nil 2)))
  obtain ⟨hiff, hfollow, -⟩ := determinize_follows_paths (by decide) hrange #["x", "y"] [0x62, 0x61]
  obtain ⟨q, hq⟩ := Option.isSome_iff_exists.1 (hiff.2 ⟨2, hpath⟩)
  obtain ⟨s, reached, hs, -, -, -, -, -, hcandidates⟩ := hfollow q hq
  exact ⟨q, s, hq, hs, (hcandidates 1).2 ⟨2, _, hpath, rfl, rfl, by decide⟩⟩

end Nfa.Graph

end MaximalMunch
