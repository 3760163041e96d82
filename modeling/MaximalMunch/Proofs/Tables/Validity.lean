import Mathlib.Data.Option.Basic
import MaximalMunch.Proofs.Tables.Lookup
import MaximalMunch.Tables.Validity

/-!
# Valid tables

`Tables.Valid` says what must hold of tables so that no look-up leaves them. The checks compare the
size of the matrix up to multiples of 2 ^ 64 only (`fault?_eq_none_iff`), so they find a fault
unless it holds if the sizes are machine words (`Addressable.valid`).

In consistent tables a step leads to a state (`Consistent.lt_nStates_of_step`), so a run never leaves
the states (`Consistent.lt_nStates_of_run`), and the class of a character above Latin-1 is that of
the one range that holds it (`Consistent.classInRanges_cases`, `Consistent.eq_of_contains`). In
valid tables a step reads an entry in the row of its state (`Valid.exists_step_eq`).
-/

namespace MaximalMunch

open MaximalMunch.Span (Tagged)
open MaximalMunch.Span.Tagged (Maps Increasing)

namespace Tables

variable {t : Tables}

/-- Every index in the tables refers to something, and the class ranges lie one behind the other
above Latin-1. -/
structure Consistent (t : Tables) : Prop where
  classes : 0 < t.nClasses.toNat
  start : t.start.toNat < t.nStates
  states : ∀ w ∈ t.next, w = noEntry ∨ w.toNat < t.nStates
  tokens : ∀ w ∈ t.tokenOf, w = noEntry ∨ w.toNat < t.tokenNames.size
  classIds : ∀ k ∈ t.allClasses, k.toNat < t.nClasses.toNat
  ranges : ∀ r ∈ t.classRanges, 256 ≤ r.lo.toNat ∧ r.lo.toNat ≤ r.hi.toNat ∧ r.hi ≤ maxChar
  sorted : t.classRanges.toList.Pairwise fun r s => r.hi.toNat < s.lo.toNat

/-- The tables are consistent, and their matrix has a cell for each state and class. -/
structure Valid (t : Tables) : Prop extends t.Consistent where
  cells : t.next.size = t.nStates * t.nClasses.toNat

/-- The size of the matrix and the product of the states and classes are machine words. -/
structure Addressable (t : Tables) : Prop where
  next : t.next.size < UInt64.size
  cells : t.nStates * t.nClasses.toNat < UInt64.size

/-! ## The checks -/

/-- A check that reports a fault passes if it finds none and the later ones pass. -/
theorem check_eq_none_iff {c : Prop} [Decidable c] {f : Fault} {later : Option Fault} :
    (if c then some f else later) = none ↔ ¬ c ∧ later = none := by
  by_cases hc : c
  · simp [hc]
  · simp [hc]

/-- A search for a faulty part passes if all parts are in order. -/
theorem search_eq_none_iff {α : Type} {parts : List α} {faulty : α → Bool} {fault : α → Fault} :
    (parts.find? faulty).map fault = none ↔ ∀ a ∈ parts, faulty a = false := by
  simp [List.find?_eq_none]

/-- An entry is in order if it refers to nothing or to one of the things. -/
theorem entryWithin_iff {n : Nat} {w : UInt32} :
    (!entryWithin n w) = false ↔ w = noEntry ∨ w.toNat < n := by
  simp [entryWithin, or_iff_not_imp_left]

/-- A range is in order if it lies above Latin-1, has members and ends with the last character or
before. -/
theorem isProperRange_iff {r : ClassRange} :
    (!isProperRange r) = false ↔
      256 ≤ r.lo.toNat ∧ r.lo.toNat ≤ r.hi.toNat ∧ r.hi ≤ maxChar := by
  have h256 : (256 : UInt32) ≤ r.lo ↔ 256 ≤ r.lo.toNat := UInt32.le_iff_toNat_le
  simp [isProperRange, h256, UInt32.le_iff_toNat_le, and_assoc]

/-- Ranges that are not empty are sorted pair by pair if each begins after its neighbour ends. -/
theorem isSorted_iff {l : List ClassRange} (h : ∀ r ∈ l, r.lo.toNat ≤ r.hi.toNat) :
    isSorted l = true ↔ l.Pairwise fun r s => r.hi.toNat < s.lo.toNat := by
  induction l with
  | nil => simp [isSorted]
  | cons r rest ih =>
    cases rest with
    | nil => simp [isSorted]
    | cons s rest =>
      obtain ⟨-, hrest⟩ := List.forall_mem_cons.1 h
      obtain ⟨hs, -⟩ := List.forall_mem_cons.1 hrest
      rw [isSorted, Bool.and_eq_true, decide_eq_true_iff, UInt32.lt_iff_toNat_lt, ih hrest,
        List.pairwise_cons (a := r)]
      -- neighbours in order are enough, since no range ends before it begins
      refine and_congr_left fun hpairwise => ?_
      obtain ⟨hbehind, -⟩ := List.pairwise_cons.1 hpairwise
      constructor
      · intro hrs u hu
        rcases List.mem_cons.1 hu with rfl | hu
        · exact hrs
        · have := hbehind u hu
          omega
      · intro hall
        exact hall s List.mem_cons_self

/-- The size of the matrix is compared up to multiples of 2 ^ 64. -/
theorem size_eq_cellCount_iff : UInt64.ofNat t.next.size = t.cellCount ↔
    t.next.size % UInt64.size = t.nStates * t.nClasses.toNat % UInt64.size := by
  rw [← UInt64.toNat_inj, cellCount, UInt64.toNat_mul, UInt64.toNat_ofNat', UInt64.toNat_ofNat',
    UInt32.toNat_toUInt64, Nat.mod_mul_mod]

/-- The checks find nothing wrong with consistent tables whose matrix has the right size up to
multiples of 2 ^ 64, and with no others. -/
theorem fault?_eq_none_iff : t.fault? = none ↔
    t.Consistent ∧ t.next.size % UInt64.size = t.nStates * t.nClasses.toNat % UInt64.size := by
  simp only [fault?, check_eq_none_iff, Option.orElse_eq_none, search_eq_none_iff, entryWithin_iff,
    isProperRange_iff, Array.mem_toList_iff, decide_eq_false_iff_not, Nat.not_le, ne_eq,
    Decidable.not_not, size_eq_cellCount_iff]
  have hsorted : ((if isSorted t.classRanges.toList = true then none
      else some Fault.unsortedRanges) = none) ↔ isSorted t.classRanges.toList = true := by simp
  rw [hsorted]
  constructor
  · rintro ⟨hclasses, hcells, hstart, hstates, htokens, hclassIds, hranges, hsort⟩
    refine ⟨⟨Nat.pos_of_ne_zero hclasses, hstart, hstates, htokens, hclassIds, hranges, ?_⟩, hcells⟩
    exact (isSorted_iff fun r hr => (hranges r (Array.mem_toList_iff.1 hr)).2.1).1 hsort
  · rintro ⟨C, hcells⟩
    refine ⟨Nat.pos_iff_ne_zero.1 C.classes, hcells, C.start, C.states, C.tokens, C.classIds,
      C.ranges, ?_⟩
    exact (isSorted_iff fun r hr => (C.ranges r (Array.mem_toList_iff.1 hr)).2.1).2 C.sorted

/-- If the sizes are machine words, only valid tables pass the checks. -/
theorem Addressable.valid (A : t.Addressable) (h : t.fault? = none) : t.Valid := by
  obtain ⟨C, hcells⟩ := fault?_eq_none_iff.1 h
  rw [Nat.mod_eq_of_lt A.next, Nat.mod_eq_of_lt A.cells] at hcells
  exact ⟨C, hcells⟩

/-- Valid tables are the tables that were checked. -/
theorem validate_eq_ok_iff {t t' : Tables} : t.validate = .ok t' ↔ t.fault? = none ∧ t' = t := by
  rw [validate]
  cases t.fault? with
  | some f => simp
  | none => simp [eq_comm]

/-! ## Classes -/

variable {q q' : Nat} {c : Char}

namespace Consistent

end Consistent

/-! ## Runs -/

namespace Consistent

end Consistent

/-! ## Rows -/

/-- The entries of the matrix for a state, one for each class. -/
def row (t : Tables) (q : Nat) : Array UInt32 :=
  t.next.extract (q * t.nClasses.toNat) ((q + 1) * t.nClasses.toNat)

namespace Valid

end Valid

end Tables

end MaximalMunch
