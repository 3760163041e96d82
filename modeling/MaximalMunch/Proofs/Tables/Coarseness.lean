import MaximalMunch.Proofs.Tables.Safety

/-!
# The classes of packed tables

No two columns are the same, so code points with the same column have the same class, and no other
code points have it (`classAt_eq_iff_column`). As columns hold the moves of all states, the tables
tell apart what some state tells apart, and nothing else; they have no class without code points and
list no range that could be left out or joined with another (`coarsest_ofDfa`, `coarsest_master`).
-/

namespace MaximalMunch.Tables

open MaximalMunch.Span (Tagged)

/-- The tables have as few classes and as few ranges of classes as the moves of an automaton
allow. -/
structure Coarsest (t : Tables) (d : Dfa) : Prop where
  /-- Code points share a class if all states move alike on them. -/
  classAt_eq_iff : ∀ x y, t.classAt x = t.classAt y ↔ ∀ s ∈ d.states, s.next x = s.next y
  /-- Class 0 is for the code points on which no state moves. -/
  classAt_eq_zero_iff : ∀ x, t.classAt x = 0 ↔ ∀ s ∈ d.states, s.next x = none
  /-- Each other class has a code point. -/
  exists_classAt : ∀ c < t.nClasses, c ≠ 0 → ∃ x ≤ maxChar, t.classAt x = c
  /-- The ranges are for code points above Latin-1, and none is empty or for class 0. -/
  range : ∀ r ∈ t.classRanges, 256 ≤ r.lo ∧ r.lo ≤ r.hi ∧ r.hi ≤ maxChar ∧ r.classId ≠ 0
  /-- A range ends before those behind it begin, and has another class than one that it touches. -/
  ranges : t.classRanges.toList.Pairwise fun r s =>
    r.hi < s.lo ∧ (r.hi.toNat + 1 = s.lo.toNat → r.classId ≠ s.classId)

variable {d : Dfa} {x y : UInt32}

/-! ## Columns and moves -/

/-- Entries tell moves apart, if the numbers of states are below `noEntry`. -/
theorem entryOf_eq_iff {i j : Option Nat} (hi : ∀ q, i = some q → q < noEntry.toNat)
    (hj : ∀ q, j = some q → q < noEntry.toNat) : entryOf i = entryOf j ↔ i = j := by
  constructor
  · intro h
    rw [← entryIndex?_entryOf hi, ← entryIndex?_entryOf hj, h]
  · intro h
    rw [h]

/-- A state moves to a number below `noEntry`, if all edges lead to states and these are not too
many. -/
theorem lt_noEntry_of_next (hsize : d.size ≤ noEntry.toNat)
    (htargets : ∀ s ∈ d.states, ∀ e ∈ s.edges, e.target < d.size) {s : Dfa.State}
    (hs : s ∈ d.states) {q : Nat} (h : s.next x = some q) : q < noEntry.toNat := by
  obtain ⟨e, he, rfl⟩ := Option.map_eq_some_iff.1 h
  exact Nat.lt_of_lt_of_le (htargets s hs e (List.mem_of_find?_eq_some he)) hsize

/-- Columns are the same if all states move alike. -/
theorem column_eq_iff (hsize : d.size ≤ noEntry.toNat)
    (htargets : ∀ s ∈ d.states, ∀ e ∈ s.edges, e.target < d.size) :
    column d x = column d y ↔ ∀ s ∈ d.states, s.next x = s.next y := by
  rw [column, column, Array.map_inj_left]
  refine forall₂_congr fun s hs => entryOf_eq_iff ?_ ?_
  · exact fun q h => lt_noEntry_of_next hsize htargets hs h
  · exact fun q h => lt_noEntry_of_next hsize htargets hs h

/-- The column is the one without moves if no state moves. -/
theorem column_eq_deadColumn_iff (hsize : d.size ≤ noEntry.toNat)
    (htargets : ∀ s ∈ d.states, ∀ e ∈ s.edges, e.target < d.size) :
    column d x = deadColumn d ↔ ∀ s ∈ d.states, s.next x = none := by
  rw [column, deadColumn, Array.map_inj_left]
  refine forall₂_congr fun s hs => entryOf_eq_iff (j := none) ?_ ?_
  · exact fun q h => lt_noEntry_of_next hsize htargets hs h
  · exact fun q h => absurd h (by simp)

/-! ## Classes and columns -/

/-- No two classes have the same column. -/
theorem nodup_classify (d : Dfa) : (classify d).1.toList.Nodup :=
  Numbering.nodup_numberAll (List.nodup_singleton _)

/-- A class is the class of a code point if it has the column of the code point. -/
theorem classAt_eq_of_getElem? (hclasses : classCount d < UInt32.size) {c : UInt32}
    (h : (classify d).1[c.toNat]? = some (column d x)) : (ofDfa d).classAt x = c := by
  have hx := getElem?_classAt hclasses x
  rw [← Array.getElem?_toList] at h hx
  obtain ⟨hlt, -⟩ := List.getElem?_eq_some_iff.1 hx
  exact UInt32.toNat_inj.1 ((List.getElem?_inj hlt (nodup_classify d)).1 (hx.trans h.symm))

/-- Code points have the same class if they have the same column. -/
theorem classAt_eq_iff_column (hclasses : classCount d < UInt32.size) :
    (ofDfa d).classAt x = (ofDfa d).classAt y ↔ column d x = column d y := by
  constructor
  · intro h
    have hx := getElem?_classAt hclasses x
    rw [h, getElem?_classAt hclasses y] at hx
    exact (Option.some.inj hx).symm
  · intro h
    apply classAt_eq_of_getElem? hclasses
    rw [h]
    exact getElem?_classAt hclasses y

/-- Class 0 is the class of the code points with the column without moves. -/
theorem classAt_eq_zero_iff_column (hclasses : classCount d < UInt32.size) :
    (ofDfa d).classAt x = 0 ↔ column d x = deadColumn d := by
  constructor
  · intro h
    have hx := getElem?_classAt hclasses x
    rw [h] at hx
    exact Option.some.inj (hx.symm.trans (getElem?_classify_zero d))
  · intro h
    apply classAt_eq_of_getElem? hclasses
    rw [h]
    exact getElem?_classify_zero d

/-- A class other than class 0 is the class of an atom. -/
theorem exists_atom_of_lt_nClasses (hclasses : classCount d < UInt32.size) {c : UInt32}
    (hc : c < (ofDfa d).nClasses) (hne : c ≠ 0) :
    ∃ a ∈ atoms d, (ofDfa d).classAt a.lo = c := by
  have hcount : (ofDfa d).nClasses.toNat = (classify d).1.size :=
    UInt32.toNat_ofNat_of_lt' hclasses
  have hlt : c.toNat < (classify d).1.size := hcount ▸ UInt32.lt_iff_toNat_lt.1 hc
  have hcolumn := Array.getElem?_eq_getElem hlt
  rcases Numbering.mem_numberAll.1 (Array.mem_of_getElem? hcolumn) with hdead | ⟨a, ha, hkey⟩
  · -- only class 0 has the column that was there before the first atom
    have hdead : (classify d).1[c.toNat] = deadColumn d := Array.mem_singleton.1 hdead
    have hzero := getElem?_classify_zero d
    rw [← hdead, ← hcolumn, ← Array.getElem?_toList, ← Array.getElem?_toList] at hzero
    have hpos : 0 < (classify d).1.toList.length := Nat.lt_of_le_of_lt (Nat.zero_le _) hlt
    have heq : 0 = c.toNat := (List.getElem?_inj hpos (nodup_classify d)).1 hzero
    exact absurd (UInt32.toNat_inj.1 heq.symm) hne
  · refine ⟨a, ha, classAt_eq_of_getElem? hclasses ?_⟩
    rw [hcolumn, ← hkey]

/-! ## Ranges -/

/-- An atom on which some state moves does not have class 0. -/
theorem tag_ne_zero (hclasses : classCount d < UInt32.size) {r : Tagged UInt32}
    (hr : r ∈ alive d) : r.tag ≠ 0 := by
  obtain ⟨a, i, hmem, hi, rfl⟩ := mem_alive.1 hr
  have hlt : i < classCount d := (Array.getElem?_eq_some_iff.1 (getElem?_classify hmem)).1
  intro hzero
  have hnat := congrArg UInt32.toNat hzero
  rw [UInt32.toNat_ofNat_of_lt' (Nat.lt_trans hlt hclasses)] at hnat
  exact hi hnat

/-- No range is for class 0. -/
theorem classId_ne_zero (hclasses : classCount d < UInt32.size) {r : ClassRange}
    (hr : r ∈ (ofDfa d).classRanges) : r.classId ≠ 0 := by
  obtain ⟨s, hs, rfl⟩ := List.mem_map.1 (List.mem_toArray.1 hr)
  obtain ⟨⟨above, habove, -, htag⟩, -⟩ :=
    Span.Tagged.exists_of_mem_joinAll (increasing_aboveLatin1 (increasing_alive d)) hs
  obtain ⟨atom, hatom, habove⟩ := List.mem_filterMap.1 habove
  obtain ⟨-, rfl⟩ := aboveLatin1?_eq_some_iff.1 habove
  rw [← htag]
  exact tag_ne_zero hclasses hatom

/-- The ranges are in order, and those that touch have different classes. -/
theorem pairwise_classRanges (d : Dfa) :
    (ofDfa d).classRanges.toList.Pairwise fun r s =>
      r.hi < s.lo ∧ (r.hi.toNat + 1 = s.lo.toNat → r.classId ≠ s.classId) := by
  have habove := increasing_aboveLatin1 (increasing_alive d)
  have hordered := (Tagged.increasing_joinAll habove).ordered
  have hjoined : (Tagged.joinAll ((alive d).filterMap (·.aboveLatin1?))).Pairwise fun s t =>
      s.hi.toNat + 1 = t.lo.toNat → s.tag ≠ t.tag := Tagged.joined_joinAll habove
  apply List.pairwise_map.2
  exact (hordered.and hjoined).imp fun h => ⟨UInt32.lt_iff_toNat_lt.2 h.1, h.2⟩

/-! ## The tables -/

/-- The tables of an automaton are as coarse as they can be, if its edges lead to states by Unicode
code points and the states can be told from `noEntry`. -/
theorem coarsest_ofDfa (hsize : d.size ≤ noEntry.toNat)
    (htargets : ∀ s ∈ d.states, ∀ e ∈ s.edges, e.target < d.size)
    (hedges : ∀ s ∈ d.states, ∀ e ∈ s.edges, e.lo ≤ e.hi ∧ e.hi ≤ maxChar) :
    (ofDfa d).Coarsest d where
  classAt_eq_iff x y :=
    (classAt_eq_iff_column (classCount_lt hedges)).trans (column_eq_iff hsize htargets)
  classAt_eq_zero_iff x :=
    (classAt_eq_zero_iff_column (classCount_lt hedges)).trans
      (column_eq_deadColumn_iff hsize htargets)
  exists_classAt c hc hne := by
    obtain ⟨a, ha, hclass⟩ := exists_atom_of_lt_nClasses (classCount_lt hedges) hc hne
    have hproper : a.lo ≤ a.hi := UInt32.le_iff_toNat_le.2 (Span.proper_of_mem_atoms ha)
    have hhi : a.hi ≤ maxChar := Span.hi_le_of_mem_atoms (forall_mem_spans hedges) ha
    exact ⟨a.lo, UInt32.le_trans hproper hhi, hclass⟩
  range r hr := by
    obtain ⟨hlo, hhi, -⟩ := mem_classRanges_ofDfa hedges hr
    refine ⟨UInt32.le_iff_toNat_le.2 hlo, ?_, hhi, classId_ne_zero (classCount_lt hedges) hr⟩
    obtain ⟨s, hs, rfl⟩ := List.mem_map.1 (List.mem_toArray.1 hr)
    have habove := increasing_aboveLatin1 (increasing_alive d)
    exact UInt32.le_iff_toNat_le.2 ((Tagged.increasing_joinAll habove).proper s hs)
  ranges := pairwise_classRanges d

/-- The tables of a definition are as coarse as they can be, if the states of its master automaton
can be told from `noEntry`. -/
theorem coarsest_master (calls : List Builder.Call)
    (hsize : (Builder.after calls).finish.master.size ≤ noEntry.toNat) :
    (ofDfa (Builder.after calls).finish.master).Coarsest (Builder.after calls).finish.master := by
  have hunicode := (Builder.represents_after calls).unicode_masterGraph
  apply coarsest_ofDfa hsize
  · intro s hs e he
    exact (Nfa.Graph.exists_arc_of_mem_edges hs he).1
  · intro s hs e he
    refine ⟨?_, hunicode.hi_le_maxChar hs he⟩
    exact UInt32.le_iff_toNat_le.2 (Nfa.Graph.exists_edge_of_mem_edges hs he).1

/-- Small letters on both sides of the end of Latin-1 share the class of a token, and a digit does
not. -/
theorem coarsest_master_letters :
    let d := (Builder.after [.declare "id" "[a-zα-ω]+" false 1,
      .declare "number" "[0-9]+" false 2]).finish.master
    d.size ≤ noEntry.toNat ∧ (ofDfa d).classAt 0x61 = (ofDfa d).classAt 0x3B1 ∧
      (ofDfa d).classAt 0x61 ≠ (ofDfa d).classAt 0x30 ∧ (ofDfa d).classAt 0x21 = 0 := by
  intro d
  have hid : Regex.parse "[a-zα-ω]+" = .ok (.repeated .oneOrMore (.oneOf
      ⟨[⟨0x61, 0x7A⟩, ⟨0x3B1, 0x3C9⟩], ⟨by decide, by decide⟩⟩)) := by
    -- the two ranges lie apart, so they are the spans of the class
    rw [← CharClass.ofSpans_of_separated]
    have h := @Regex.ClassText.ofRanges [('a', 'z'), ('α', 'ω')] (by decide) (by decide) (by decide)
    exact Regex.parseChars_of_repeated (.operator (.atom (.oneOf h)) .plus)
  have hnumber : Regex.parse "[0-9]+" = .ok (.repeated .oneOrMore (.oneOf .digit)) :=
    Regex.parseChars_of_repeated (.operator (.atom (.oneOf Regex.classText_digits)) .plus)
  have hcomputed : d.size ≤ noEntry.toNat ∧
      d.states.all (fun s => s.next 0x61 = s.next 0x3B1) = true ∧
      d.states.all (fun s => s.next 0x61 = s.next 0x30) = false ∧
      d.states.all (fun s => s.next 0x21 = none) = true := by
    simp only [d, Builder.after, List.foldl_cons, List.foldl_nil, Builder.attempt, Builder.perform,
      Builder.declare, TokenAutomaton.ofPattern, Regex.compile, hid, hnumber]
    decide +kernel
  obtain ⟨hsize, hletters, hdigit, hmark⟩ := hcomputed
  have hcoarsest : (ofDfa d).Coarsest d := coarsest_master _ hsize
  refine ⟨hsize, (hcoarsest.classAt_eq_iff _ _).2 ?_, fun heq => ?_,
    (hcoarsest.classAt_eq_zero_iff _).2 ?_⟩
  · simpa using Array.all_eq_true_iff_forall_mem.1 hletters
  · -- one class would take every state to the same target with a letter and a digit
    have hall := (hcoarsest.classAt_eq_iff _ _).1 heq
    rw [Array.all_eq_true_iff_forall_mem.2 fun s hs => decide_eq_true (hall s hs)] at hdigit
    exact absurd hdigit (by decide)
  · simpa using Array.all_eq_true_iff_forall_mem.1 hmark

end MaximalMunch.Tables
