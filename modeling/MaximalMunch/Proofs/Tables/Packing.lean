import Mathlib.Data.List.Find
import MaximalMunch.Dfa.Scanning
import MaximalMunch.Proofs.Tables.Lookup
import MaximalMunch.Scan.Scanner
import MaximalMunch.Tables.Packing

/-!
# Packing

The class of a code point has the column of the code point (`getElem?_classAt`), and the matrix
holds that column for every state. So the tables of an automaton lead from any state, by any
character, to where the automaton leads, and they report what it reports (`automaton_ofDfa`), as
long as states, candidates and classes can be told from `noEntry` and counted in 32 bits
(`Dfa.Packable`).
-/

namespace MaximalMunch

open MaximalMunch.Span (Tagged)
open MaximalMunch.Span.Tagged (Maps Increasing)

/-! ## Entries -/

/-- A number below `noEntry` is read back from its entry. -/
theorem entryIndex?_entryOf {i : Option Nat} (h : ∀ n, i = some n → n < noEntry.toNat) :
    entryIndex? (Tables.entryOf i) = i := by
  cases i with
  | none => rfl
  | some n =>
    have hn := h n rfl
    have hlt : n < UInt32.size := Nat.lt_trans hn noEntry.toNat_lt
    have hne : UInt32.ofNat n ≠ noEntry := fun heq => by
      have := congrArg UInt32.toNat heq
      rw [UInt32.toNat_ofNat_of_lt' hlt] at this
      omega
    rw [Tables.entryOf, entryIndex?, if_neg hne, UInt32.toNat_ofNat_of_lt' hlt]

/-- The automaton fits into tables. -/
structure Dfa.Packable (d : Dfa) : Prop where
  states : d.size < noEntry.toNat
  targets : ∀ s ∈ d.states, ∀ e ∈ s.edges, e.target < d.size
  candidates : ∀ s ∈ d.states, ∀ t ∈ s.candidates, t < noEntry.toNat
  classes : Tables.classCount d < UInt32.size

namespace Tables

variable {d : Dfa} {cp : UInt32}

/-! ## Columns -/

/-- The column of the code points that lead nowhere. -/
def deadColumn (d : Dfa) : Array UInt32 := d.states.map fun _ => noEntry

/-- The edges of a state are among the spans that are cut into atoms. -/
theorem mem_spans_of_mem_edges {s : Dfa.State} (hs : s ∈ d.states) {e : Dfa.Edge}
    (he : e ∈ s.edges) : e.toSpan ∈ d.states.toList.flatMap fun s => s.edges.map (·.toSpan) :=
  List.mem_flatMap.2 ⟨s, Array.mem_toList_iff.2 hs, List.mem_map.2 ⟨e, he, rfl⟩⟩

/-- All code points of an atom have the same column. -/
theorem column_eq_of_mem_atoms {a : Span} (ha : a ∈ atoms d) (hcp : a.contains cp = true) :
    column d cp = column d a.lo := by
  apply Array.map_congr_left
  intro s hs
  have hfind : s.edges.find? (·.contains cp) = s.edges.find? (·.contains a.lo) := by
    apply List.find?_congr
    intro e he
    rw [Bool.eq_iff_iff]
    exact Span.contains_iff_of_mem_atoms ha (mem_spans_of_mem_edges hs he) hcp
  rw [Dfa.State.next, hfind]
  rfl

/-- A code point outside all atoms leads nowhere. -/
theorem column_eq_dead (h : ∀ a ∈ atoms d, a.contains cp ≠ true) : column d cp = deadColumn d := by
  apply Array.map_congr_left
  intro s hs
  have hfind : s.edges.find? (·.contains cp) = none := by
    apply List.find?_eq_none.2
    intro e he hcp
    obtain ⟨a, ha, hin⟩ := Span.exists_mem_atoms (mem_spans_of_mem_edges hs he) hcp
    exact h a ha hin
  rw [Dfa.State.next, hfind]
  rfl

/-! ## Classes -/

/-- Class 0 has the column without moves. -/
theorem getElem?_classify_zero (d : Dfa) : (classify d).1[0]? = some (deadColumn d) :=
  Numbering.getElem?_numberAll_of_found rfl

/-- An atom is numbered with the index of its column. -/
theorem getElem?_classify {a : Span} {i : Nat} (h : (a, i) ∈ (classify d).2) :
    (classify d).1[i]? = some (column d a.lo) :=
  Numbering.getElem?_numberAll h

/-- All atoms are numbered, in their order. -/
theorem map_fst_classify (d : Dfa) : (classify d).2.map (·.1) = atoms d :=
  Numbering.map_fst_numberAll _ _

/-- The classified spans are atoms. -/
theorem mem_atoms_of_mem_classify {a : Span} {i : Nat} (h : (a, i) ∈ (classify d).2) :
    a ∈ atoms d := by
  rw [← map_fst_classify]
  exact List.mem_map.2 ⟨_, h, rfl⟩

/-- Every atom is classified. -/
theorem exists_mem_classify {a : Span} (h : a ∈ atoms d) : ∃ i, (a, i) ∈ (classify d).2 := by
  rw [← map_fst_classify] at h
  obtain ⟨⟨a', i⟩, hmem, rfl⟩ := List.mem_map.1 h
  exact ⟨i, hmem⟩

/-- An atom is kept unless its class is 0. -/
theorem kept_eq_some_iff {a : Span} {i : Nat} {r : Tagged UInt32} :
    (if i = 0 then none else some { a with tag := .ofNat i }) = some r ↔
      i ≠ 0 ∧ r = { a with tag := .ofNat i } := by
  by_cases hi : i = 0
  · simp [hi]
  · simp [hi, eq_comm]

/-- The spans that are alive are the atoms whose class is not class 0. -/
theorem mem_alive {r : Tagged UInt32} :
    r ∈ alive d ↔ ∃ a i, (a, i) ∈ (classify d).2 ∧ i ≠ 0 ∧ r = { a with tag := .ofNat i } := by
  rw [alive, List.mem_filterMap]
  constructor
  · rintro ⟨⟨a, i⟩, hmem, heq⟩
    exact ⟨a, i, hmem, kept_eq_some_iff.1 heq⟩
  · rintro ⟨a, i, hmem, h⟩
    exact ⟨(a, i), hmem, kept_eq_some_iff.2 h⟩

/-- The class that the atoms give to a code point has the column of the code point. -/
theorem getElem?_of_maps_alive (hclasses : classCount d < UInt32.size) {c : UInt32}
    (h : Maps (alive d) cp c) : (classify d).1[c.toNat]? = some (column d cp) := by
  obtain ⟨r, hr, hcp, rfl⟩ := h
  obtain ⟨a, i, hmem, -, rfl⟩ := mem_alive.1 hr
  have hcolumn := getElem?_classify hmem
  have hi : i < classCount d := (Array.getElem?_eq_some_iff.1 hcolumn).1
  show (classify d).1[(UInt32.ofNat i).toNat]? = _
  rw [UInt32.toNat_ofNat_of_lt' (Nat.lt_trans hi hclasses), hcolumn,
    column_eq_of_mem_atoms (mem_atoms_of_mem_classify hmem) hcp]

/-- A code point to which the atoms give no class has the column of class 0. -/
theorem getElem?_of_not_maps_alive (h : ∀ c, ¬ Maps (alive d) cp c) :
    (classify d).1[0]? = some (column d cp) := by
  by_cases hatom : ∃ a ∈ atoms d, a.contains cp = true
  · obtain ⟨a, ha, hcp⟩ := hatom
    obtain ⟨i, hmem⟩ := exists_mem_classify ha
    have hi : i = 0 := by
      -- an atom of another class would map the code point
      apply Decidable.byContradiction
      intro hi
      exact h _ ⟨_, mem_alive.2 ⟨a, i, hmem, hi, rfl⟩, hcp, rfl⟩
    rw [column_eq_of_mem_atoms ha hcp, ← getElem?_classify hmem, hi]
  · rw [column_eq_dead fun a ha hcp => hatom ⟨a, ha, hcp⟩]
    exact getElem?_classify_zero d

/-- What is left of the atoms above Latin-1. -/
theorem aboveLatin1?_eq_some_iff {r r' : Tagged UInt32} :
    r.aboveLatin1? = some r' ↔
      256 ≤ r.hi.toNat ∧ r' = { r with lo := if r.lo < 256 then 256 else r.lo } := by
  have h256 : r.hi < 256 ↔ r.hi.toNat < 256 := UInt32.lt_iff_toNat_lt
  rw [Tagged.aboveLatin1?]
  by_cases hhi : r.hi < 256
  · rw [if_pos hhi]
    have := h256.1 hhi
    simp
    omega
  · rw [if_neg hhi]
    have : 256 ≤ r.hi.toNat := Nat.le_of_not_lt fun h => hhi (h256.2 h)
    simp [this, eq_comm]

/-- The lower end of what is left above Latin-1. -/
theorem toNat_lo_aboveLatin1 (lo : UInt32) :
    (if lo < 256 then (256 : UInt32) else lo).toNat = max lo.toNat 256 := by
  have h256 : lo < 256 ↔ lo.toNat < 256 := UInt32.lt_iff_toNat_lt
  split
  · rename_i h
    have := h256.1 h
    show 256 = _
    omega
  · rename_i h
    have := mt h256.2 h
    omega

/-- Above Latin-1 nothing is lost. -/
theorem maps_aboveLatin1 {l : List (Tagged UInt32)} (hcp : 256 ≤ cp.toNat) {c : UInt32} :
    Maps (l.filterMap (·.aboveLatin1?)) cp c ↔ Maps l cp c := by
  constructor
  · rintro ⟨r', hr', hin, rfl⟩
    obtain ⟨r, hr, heq⟩ := List.mem_filterMap.1 hr'
    obtain ⟨-, rfl⟩ := aboveLatin1?_eq_some_iff.1 heq
    rw [Span.contains_iff] at hin
    have hlo := toNat_lo_aboveLatin1 r.lo
    refine ⟨r, hr, Span.contains_iff.2 ⟨?_, hin.2⟩, rfl⟩
    have := hin.1
    simp only [hlo] at this
    omega
  · rintro ⟨r, hr, hin, rfl⟩
    rw [Span.contains_iff] at hin
    have hlo := toNat_lo_aboveLatin1 r.lo
    refine ⟨_, List.mem_filterMap.2 ⟨r, hr, aboveLatin1?_eq_some_iff.2 ⟨by omega, rfl⟩⟩,
      Span.contains_iff.2 ⟨?_, hin.2⟩, rfl⟩
    simp only [hlo]
    omega

/-- The atoms on which some state moves are in increasing order. -/
theorem increasing_alive (d : Dfa) : Increasing (alive d) where
  proper r hr := by
    obtain ⟨a, i, hmem, -, rfl⟩ := mem_alive.1 hr
    exact Span.proper_of_mem_atoms (mem_atoms_of_mem_classify hmem)
  ordered := by
    have hatoms : (atoms d).Pairwise fun a b => a.hi.toNat < b.lo.toNat := Span.pairwise_atoms _
    rw [← map_fst_classify, List.pairwise_map] at hatoms
    rw [alive, List.pairwise_filterMap]
    refine hatoms.imp fun {p q} hpq r hr r' hr' => ?_
    obtain ⟨-, rfl⟩ := kept_eq_some_iff.1 hr
    obtain ⟨-, rfl⟩ := kept_eq_some_iff.1 hr'
    exact hpq

/-- So are the parts above Latin-1. -/
theorem increasing_aboveLatin1 {l : List (Tagged UInt32)} (hl : Increasing l) :
    Increasing (l.filterMap (·.aboveLatin1?)) where
  proper r' hr' := by
    obtain ⟨r, hr, heq⟩ := List.mem_filterMap.1 hr'
    obtain ⟨hhi, rfl⟩ := aboveLatin1?_eq_some_iff.1 heq
    have := hl.proper r hr
    have hlo := toNat_lo_aboveLatin1 r.lo
    simp only [hlo]
    omega
  ordered := by
    rw [List.pairwise_filterMap]
    refine hl.ordered.imp fun {r s} hrs r' hr' s' hs' => ?_
    obtain ⟨hhi, rfl⟩ := aboveLatin1?_eq_some_iff.1 hr'
    obtain ⟨-, rfl⟩ := aboveLatin1?_eq_some_iff.1 hs'
    have hlo := toNat_lo_aboveLatin1 s.lo
    simp only [hlo]
    omega

/-- The class of a code point, be it a character or not. -/
def classAt (t : Tables) (cp : UInt32) : UInt32 :=
  if h : cp.toNat < 256 then t.latin1[cp.toNat] else t.classInRanges cp

/-- The class of a character is that of its code point. -/
theorem classOf_eq_classAt (t : Tables) (c : Char) : t.classOf c = t.classAt c.val := rfl

/-- The class of a code point is the one that the atoms give to it, or class 0. -/
theorem classAt_ofDfa (d : Dfa) (cp : UInt32) :
    Maps (alive d) cp ((ofDfa d).classAt cp) ∨
      ((ofDfa d).classAt cp = 0 ∧ ∀ k, ¬ Maps (alive d) cp k) := by
  rw [classAt]
  by_cases hcp : cp.toNat < 256
  · rw [dif_pos hcp]
    have hval : UInt32.ofNat cp.toNat = cp := UInt32.ofNat_toNat
    have hlatin1 : (ofDfa d).latin1[cp.toNat] = latin1Class (alive d) ⟨cp.toNat, hcp⟩ :=
      Vector.getElem_ofFn hcp
    rw [hlatin1, latin1Class, hval]
    cases hfind : (alive d).find? (·.contains cp) with
    | some r =>
      have hin := List.find?_some hfind
      exact Or.inl ⟨r, List.mem_of_find?_eq_some hfind, hin, rfl⟩
    | none =>
      refine Or.inr ⟨rfl, ?_⟩
      rintro k ⟨r, hr, hin, -⟩
      exact List.find?_eq_none.1 hfind r hr hin
  · -- above Latin-1 bisection finds the range, and the ranges map like the atoms
    rw [dif_neg hcp]
    have habove := increasing_aboveLatin1 (increasing_alive d)
    have hmaps : ∀ k, Maps (Tagged.joinAll ((alive d).filterMap (·.aboveLatin1?))) cp k ↔
        Maps (alive d) cp k := fun k =>
      (Tagged.maps_joinAll habove.proper).trans (maps_aboveLatin1 (Nat.le_of_not_lt hcp))
    rcases classInRanges_eq (t := ofDfa d) (Tagged.increasing_joinAll habove) rfl cp with
      h | ⟨hzero, h⟩
    · exact Or.inl ((hmaps _).1 h)
    · exact Or.inr ⟨hzero, fun k hk => h k ((hmaps k).2 hk)⟩

/-- The class of a code point has the column of the code point. -/
theorem getElem?_classAt (hclasses : classCount d < UInt32.size) (cp : UInt32) :
    (classify d).1[((ofDfa d).classAt cp).toNat]? = some (column d cp) := by
  rcases classAt_ofDfa d cp with h | ⟨hzero, h⟩
  · exact getElem?_of_maps_alive hclasses h
  · rw [hzero]
    exact getElem?_of_not_maps_alive h

/-! ## The automaton of the tables -/

/-- The entry of a state in the column of a code point. -/
theorem getD_column (d : Dfa) (cp : UInt32) (q : Nat) :
    (column d cp).getD q noEntry = entryOf (d.next q cp) := by
  rw [column, Array.getD_eq_getD_getElem?, Array.getElem?_map, Dfa.next]
  cases d.states[q]? with
  | none => rfl
  | some s => rfl

/-- Moves lead to states. -/
theorem lt_size_of_next (hd : d.Packable) {q q' : Nat} (h : d.next q cp = some q') :
    q' < d.size := by
  obtain ⟨s, hs, hnext⟩ := Option.bind_eq_some_iff.1 h
  obtain ⟨e, he, rfl⟩ := Option.map_eq_some_iff.1 hnext
  exact hd.targets s (Array.mem_of_getElem? hs) e (List.mem_of_find?_eq_some he)

/-- The tables lead where the automaton leads, from any number. -/
theorem step_ofDfa (hd : d.Packable) (q : Nat) (c : Char) : (ofDfa d).step q c = d.step q c := by
  have hcolumn := getElem?_classAt hd.classes c.val
  rw [← classOf_eq_classAt] at hcolumn
  have hlt : ((ofDfa d).classOf c).toNat < (classify d).1.toList.length :=
    (Array.getElem?_eq_some_iff.1 hcolumn).1
  have hcount : (ofDfa d).nClasses.toNat = (classify d).1.toList.length :=
    UInt32.toNat_ofNat_of_lt' hd.classes
  have hentry : (ofDfa d).next[q * (ofDfa d).nClasses.toNat + ((ofDfa d).classOf c).toNat]? =
      if q < d.size then some (entryOf (d.next q c.val)) else none := by
    rw [hcount]
    show ((List.range d.size).flatMap fun s =>
      (classify d).1.toList.map fun column => column.getD s noEntry).toArray[_]? = _
    rw [List.getElem?_toArray,
      getElem?_rows (fun s (column : Array UInt32) => column.getD s noEntry) _ hlt,
      Array.getElem?_toList, hcolumn, Option.map_some, getD_column]
  show ((ofDfa d).next[_]?.bind entryIndex?) = d.next q c.val
  rw [hentry]
  by_cases hq : q < d.size
  · -- the number of a state is never mistaken for `noEntry`
    rw [if_pos hq]
    exact entryIndex?_entryOf fun q' h => Nat.lt_trans (lt_size_of_next hd h) hd.states
  · rw [if_neg hq, Dfa.next, Array.getElem?_eq_none (Nat.le_of_not_lt hq)]
    rfl

/-- The tables report what the automaton reports, at any number. -/
theorem accepting_ofDfa (hd : d.Packable) (q : Nat) :
    (ofDfa d).accepting q = d.accepting q := by
  rw [accepting, Dfa.accepting]
  show ((d.states.map fun s => entryOf s.token)[q]?.bind fun w => (entryIndex? w).bind fun t =>
    d.tokenNames[t]?) = _
  rw [Array.getElem?_map]
  cases hs : d.states[q]? with
  | none => rfl
  | some s =>
    have htoken : entryIndex? (entryOf s.token) = s.token := entryIndex?_entryOf fun t ht =>
      hd.candidates s (Array.mem_of_getElem? hs) t (List.mem_of_head? ht)
    show ((entryIndex? (entryOf s.token)).bind fun t => d.tokenNames[t]?) = _
    rw [htoken]
    rfl

/-- The automaton of the tables is the one that was packed. -/
theorem automaton_ofDfa (hd : d.Packable) : (ofDfa d).automaton = d.automaton := by
  rw [automaton, Dfa.automaton]
  congr
  · funext q c
    exact step_ofDfa hd q c
  · funext q
    exact accepting_ofDfa hd q

end Tables

end MaximalMunch
