import Mathlib.Data.List.Permutation
import MaximalMunch.Proofs.CharClass.Sets
import MaximalMunch.Proofs.Tables.Lookup

/-!
# The algebra of classes

Classes are the finite sets of 32-bit numbers, each in one form: the operations are those on sets,
complements are taken among the Unicode code points, and classes are equal if their members are
(`canonical_set_algebra`). As the spans of a class are in order, a member can be looked for by
bisection (`bisectContains_eq`).
-/

namespace MaximalMunch.CharClass

open MaximalMunch.Span.Tagged (Increasing)

variable {a b : CharClass} {cp : UInt32}

/-! ## Bisection -/

/-- The spans of a class as ranges, all with the same class. -/
def ranges (a : CharClass) : Array ClassRange :=
  (a.spans.map fun s => { s with classId := 0 }).toArray

/-- The code point belongs to the class, if its span is looked for by bisection. -/
def bisectContains (a : CharClass) (cp : UInt32) : Bool :=
  match a.spans[bisect a.ranges cp 0 a.spans.length]? with
  | some s => s.contains cp
  | none => false

/-- Spans that are apart are in increasing order. -/
theorem increasing_spans (a : CharClass) :
    Increasing (a.spans.map fun s => { s with tag := (0 : UInt32) }) where
  proper t ht := by
    obtain ⟨s, hs, rfl⟩ := List.mem_map.1 ht
    exact UInt32.le_iff_toNat_le.1 (a.separated.proper s hs)
  ordered := by
    rw [List.pairwise_map]
    exact a.separated.apart.imp Nat.lt_of_succ_lt

/-- The spans of a class can be bisected. -/
theorem bisectContains_eq (a : CharClass) (cp : UInt32) : a.bisectContains cp = a.contains cp := by
  have hfind := find?_eq_bisect (fun s : Span => { s with tag := (0 : UInt32) })
    a.increasing_spans cp
  rw [List.map_map] at hfind
  rw [contains, ← List.isSome_find?, bisectContains]
  refine Eq.trans ?_ (congrArg Option.isSome hfind.symm)
  show _ = (a.spans[bisect a.ranges cp 0 a.spans.length]?.filter (·.contains cp)).isSome
  cases a.spans[bisect a.ranges cp 0 a.spans.length]? with
  | none => rfl
  | some s => rw [Option.isSome_filter]; rfl

/-! ## Complement and equality -/

/-- Among the Unicode code points the complement of the complement is the class. -/
theorem negate_negate (h : a.Unicode) : a.negate.negate = a := by
  apply ext_of_contains
  intro cp
  rw [h.negate.contains_negate, h.contains_negate]
  constructor
  · rintro ⟨hcp, hnot⟩
    exact Classical.not_not.1 fun hout => hnot ⟨hcp, hout⟩
  · intro hin
    exact ⟨h.le_maxChar hin, fun hout => hout.2 hin⟩

/-- A class is determined by its members. -/
theorem eq_iff_contains : a = b ↔ ∀ cp, a.contains cp = b.contains cp := by
  constructor
  · rintro rfl cp
    rfl
  · intro h
    exact ext_of_contains fun cp => by rw [h cp]

/-- The spans of a class are proper, in order and apart, whatever the class is made from, and they
hold what they should: the members of some spans, in any order and with ends anywhere up to the last
32-bit number; one character; the characters of a range; the members of either of two classes; the
Unicode code points outside a class. The complement of the complement of a class of Unicode code
points is the class. Classes are equal if and only if their members are, and bisection finds the
members. -/
theorem canonical_set_algebra :
    (∀ spans, Span.Separated (Span.joinAll spans) ∧
      ∀ cp, (ofSpans spans).contains cp = true ↔ ∃ s ∈ spans, s.lo ≤ cp ∧ cp ≤ s.hi) ∧
    (∀ c, Span.Separated (single c).spans ∧ ∀ cp, (single c).contains cp = true ↔ cp = c.val) ∧
    (∀ lo hi, Span.Separated (range lo hi).spans ∧
      ∀ cp, (range lo hi).contains cp = true ↔ lo.val ≤ cp ∧ cp ≤ hi.val) ∧
    (∀ a b : CharClass, Span.Separated (a.union b).spans ∧
      ∀ cp, (a.union b).contains cp = true ↔ a.contains cp = true ∨ b.contains cp = true) ∧
    (∀ a : CharClass, Span.Separated (Span.gaps 0 a.spans) ∧
      ∀ cp ≤ maxChar, a.negate.contains cp = true ↔ ¬ a.contains cp = true) ∧
    (∀ a : CharClass, (∀ cp, a.contains cp = true → cp ≤ maxChar) → a.negate.negate = a) ∧
    (∀ a b : CharClass, a = b ↔ ∀ cp, a.contains cp = b.contains cp) ∧
    ∀ (a : CharClass) cp, a.bisectContains cp = a.contains cp := by
  refine ⟨fun spans => ⟨Span.separated_joinAll spans, fun cp => ?_⟩,
    fun c => ⟨(single c).separated, fun cp => contains_single⟩,
    fun lo hi => ⟨(range lo hi).separated, fun cp => contains_range⟩,
    fun a b => ⟨(a.union b).separated, fun cp => contains_union⟩,
    fun a => ⟨a.negate.separated, fun cp hcp => contains_negate hcp⟩,
    fun a h => negate_negate (unicode_iff.2 h), fun a b => eq_iff_contains, bisectContains_eq⟩
  -- what is left is what a class made of spans holds
  rw [contains_ofSpans, Span.Covers]
  refine exists_congr fun s => and_congr_right fun _ => ?_
  rw [Span.contains_iff, UInt32.le_iff_toNat_le, UInt32.le_iff_toNat_le]

/-- Spans that overlap and touch up to the last 32-bit number, and the complement of what they
leave. -/
theorem canonical_set_algebra_last :
    let a := ofSpans [⟨0xFFFFFFF0, 0xFFFFFFFF⟩, ⟨0x61, 0x63⟩, ⟨0x64, 0xFFFFFFF8⟩]
    a.spans = [⟨0x61, 0xFFFFFFFF⟩] ∧ a.contains 0xFFFFFFFF = true ∧
      (0x60 : UInt32) ≤ maxChar ∧ a.negate.contains 0x60 = true ∧
      (∀ cp, digit.contains cp = true → cp ≤ maxChar) ∧ digit.negate.negate = digit := by
  intro a
  obtain ⟨hspans, -, -, -, hnegate, hnegate_negate, -⟩ := canonical_set_algebra
  have hout : ¬ a.contains 0x60 = true := Bool.eq_false_iff.1 (by cbv)
  have hlast : a.contains 0xFFFFFFFF = true :=
    ((hspans _).2 0xFFFFFFFF).2 ⟨⟨0xFFFFFFF0, 0xFFFFFFFF⟩, .head _, by decide, by decide⟩
  have hdigit : ∀ cp, digit.contains cp = true → cp ≤ maxChar := unicode_iff.1 Unicode.digit
  exact ⟨by cbv, hlast, by decide, ((hnegate a).2 0x60 (by decide)).2 hout, hdigit,
    hnegate_negate digit hdigit⟩

end MaximalMunch.CharClass
