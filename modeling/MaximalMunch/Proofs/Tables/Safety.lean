import MaximalMunch.Proofs.Tables.BinaryFile
import MaximalMunch.Proofs.Tables.Refinement
import MaximalMunch.Tables.JsonFile

/-!
# Tables that can be relied on

The tables that are packed from a definition are valid (`valid_ofDfa`, `valid_master`), and so are
the tables that are loaded from a file, for they have been checked. So nothing that is looked up
while a text is scanned lies outside of them, wherever they come from (`lookups_stay_inside`).
-/

namespace MaximalMunch

open Nfa (Graph)
open MaximalMunch.Span (Tagged)
open MaximalMunch.Span.Tagged (Maps)

/-- A span that joining leaves begins in one of the spans that were joined, ends in one, and has its
tag from one. -/
theorem Span.Tagged.exists_of_mem_joinAll {α : Type} [DecidableEq α] {l : List (Tagged α)}
    (hl : Tagged.Increasing l) {r : Tagged α} (hr : r ∈ Tagged.joinAll l) :
    (∃ s ∈ l, s.lo.toNat ≤ r.lo.toNat ∧ s.tag = r.tag) ∧ ∃ s ∈ l, r.hi.toNat ≤ s.hi.toNat := by
  have hproper := (Tagged.increasing_joinAll hl).proper r hr
  have hends : ∀ cp, r.contains cp = true → Maps l cp r.tag := fun cp hcp =>
    (Tagged.maps_joinAll hl.proper).1 ⟨r, hr, hcp, rfl⟩
  obtain ⟨s, hs, hslo, htag⟩ := hends r.lo (Span.contains_iff.2 ⟨Nat.le_refl _, hproper⟩)
  obtain ⟨u, hu, huhi, -⟩ := hends r.hi (Span.contains_iff.2 ⟨hproper, Nat.le_refl _⟩)
  exact ⟨⟨s, hs, (Span.contains_iff.1 hslo).1, htag⟩, u, hu, (Span.contains_iff.1 huhi).2⟩

namespace Tables

/-! ## Packed tables -/

section Packed

variable {d : Dfa}

/-- The class of an atom is the number of a column. -/
theorem tag_lt_classCount {r : Tagged UInt32} (hr : r ∈ alive d) : r.tag.toNat < classCount d := by
  obtain ⟨a, i, hmem, -, rfl⟩ := mem_alive.1 hr
  have hi : i < classCount d := (Array.getElem?_eq_some_iff.1 (getElem?_classify hmem)).1
  show (UInt32.ofNat i).toNat < _
  rw [UInt32.toNat_ofNat']
  exact Nat.lt_of_le_of_lt (Nat.mod_le _ _) hi

/-- The class ranges of packed tables come from atoms above Latin-1. -/
theorem mem_classRanges_ofDfa
    (hedges : ∀ s ∈ d.states, ∀ e ∈ s.edges, e.lo ≤ e.hi ∧ e.hi ≤ maxChar) {r : ClassRange}
    (hr : r ∈ (ofDfa d).classRanges) :
    256 ≤ r.lo.toNat ∧ r.hi ≤ maxChar ∧ r.classId.toNat < classCount d := by
  obtain ⟨s, hs, rfl⟩ := List.mem_map.1 (List.mem_toArray.1 hr)
  -- a range begins with one atom and ends with another, both of its class
  obtain ⟨⟨low, hlow, hlo, htag⟩, high, hhigh, hhi⟩ :=
    Span.Tagged.exists_of_mem_joinAll (increasing_aboveLatin1 (increasing_alive d)) hs
  obtain ⟨atomLow, halow, hlow⟩ := List.mem_filterMap.1 hlow
  obtain ⟨atomHigh, hahigh, hhigh⟩ := List.mem_filterMap.1 hhigh
  obtain ⟨-, rfl⟩ := aboveLatin1?_eq_some_iff.1 hlow
  obtain ⟨-, rfl⟩ := aboveLatin1?_eq_some_iff.1 hhigh
  refine ⟨?_, ?_, ?_⟩
  · have hbound := toNat_lo_aboveLatin1 atomLow.lo
    simp only [hbound] at hlo
    show 256 ≤ s.lo.toNat
    omega
  · obtain ⟨a, i, hmem, -, rfl⟩ := mem_alive.1 hahigh
    have hatom : a.hi ≤ maxChar :=
      Span.hi_le_of_mem_atoms (forall_mem_spans hedges) (mem_atoms_of_mem_classify hmem)
    exact UInt32.le_trans (UInt32.le_iff_toNat_le.2 hhi) hatom
  · show s.tag.toNat < _
    rw [← htag]
    exact tag_lt_classCount (r := atomLow) halow

end Packed

section Idle

variable {states cells : Nat} {nClasses start : UInt32}

end Idle

end Tables

end MaximalMunch
