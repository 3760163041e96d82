/-!
# Character classes

A `CharClass` is a finite set of code points, kept as closed intervals (`Span`) in increasing order
with a gap between any two of them. That form is part of the type, so a set has one representation
and equality of classes is equality of sets. Code points are all 32-bit numbers, beyond the last
Unicode character too.

`Span.joinAll` brings any list of spans into that form, `Span.gaps` walks the complement.
-/

namespace MaximalMunch

/-- The largest Unicode code point. -/
def maxChar : UInt32 := 0x10FFFF

/-- The code point after `cp`; the last code point is its own successor. -/
def codePointAfter (cp : UInt32) : UInt32 :=
  if cp = 0xFFFFFFFF then cp else cp + 1

/-- A code point and its successor are apart by one, short of the last code point. -/
theorem toNat_codePointAfter (cp : UInt32) :
    (codePointAfter cp).toNat = min (cp.toNat + 1) 0xFFFFFFFF := by
  unfold codePointAfter
  have hcp := cp.toNat_lt
  split
  · rename_i h; subst h; rfl
  · rename_i h
    have : cp.toNat ≠ 0xFFFFFFFF := fun h' => h (UInt32.toNat.inj h')
    rw [UInt32.toNat_add]
    simp only [UInt32.reduceToNat]
    omega

/-- The successor bounds what it should, as no code point lies behind the last one. -/
theorem le_codePointAfter_iff {cp cp' : UInt32} :
    cp ≤ codePointAfter cp' ↔ cp.toNat ≤ cp'.toNat + 1 := by
  have hcp := cp.toNat_lt
  rw [UInt32.le_iff_toNat_le, toNat_codePointAfter]
  omega

/-- A closed interval of code points. -/
structure Span where
  lo : UInt32
  hi : UInt32
deriving DecidableEq, Repr, Inhabited

namespace Span

/-- The code point lies in the span. -/
def contains (s : Span) (cp : UInt32) : Bool :=
  s.lo ≤ cp && cp ≤ s.hi

/-- Spans that are not empty, in increasing order, with a gap between any two. -/
structure Separated (spans : List Span) : Prop where
  proper : ∀ s ∈ spans, s.lo ≤ s.hi
  apart : spans.Pairwise fun s t => s.hi.toNat + 1 < t.lo.toNat

/-- No spans are separated. -/
theorem Separated.nil : Separated [] := ⟨by simp, .nil⟩

/-- One span only has to be proper. -/
theorem Separated.singleton {s : Span} (h : s.lo ≤ s.hi) : Separated [s] :=
  ⟨by simpa using h, by simp⟩

/-- What follows the first span is separated as well. -/
theorem Separated.tail {s : Span} {rest : List Span} (h : Separated (s :: rest)) :
    Separated rest :=
  ⟨fun t ht => h.proper t (List.mem_cons_of_mem _ ht), (List.pairwise_cons.1 h.apart).2⟩

/-- A proper span may come first if it leaves a gap before all others. -/
theorem Separated.cons {s : Span} {rest : List Span} (hs : s.lo ≤ s.hi)
    (hrest : Separated rest) (h : ∀ t ∈ rest, s.hi.toNat + 1 < t.lo.toNat) :
    Separated (s :: rest) :=
  ⟨by simpa using ⟨hs, hrest.proper⟩, List.pairwise_cons.2 ⟨h, hrest.apart⟩⟩

/-! ## Joining -/

/-- Joins spans that start in increasing order: each span that overlaps or touches the one collected
so far, `cur`, extends it. -/
def join (cur : Span) : List Span → List Span
  | [] => [cur]
  | s :: rest =>
    if s.lo ≤ codePointAfter cur.hi then
      join ⟨cur.lo, if cur.hi ≤ s.hi then s.hi else cur.hi⟩ rest
    else cur :: join s rest

/-- The separated spans that cover the same code points as the given ones, in any order. -/
def joinAll (spans : List Span) : List Span :=
  match (spans.filter fun s => s.lo ≤ s.hi).mergeSort fun s t => s.lo ≤ t.lo with
  | [] => []
  | s :: rest => join s rest

/-- Joining spans that start in increasing order separates them: a span that neither overlaps nor
touches `cur` comes after a gap, and so do all that start later. -/
theorem separated_join {rest : List Span} : ∀ {cur : Span}, cur.lo ≤ cur.hi →
    (∀ s ∈ rest, s.lo ≤ s.hi) → (cur :: rest).Pairwise (fun s t => s.lo ≤ t.lo) →
    Separated (join cur rest) ∧ ∀ t ∈ join cur rest, cur.lo ≤ t.lo := by
  induction rest with
  | nil => intro cur hcur _ _; exact ⟨.singleton hcur, by simp [join]⟩
  | cons s rest ih =>
    intro cur hcur hrest hsorted
    have hs : s.lo ≤ s.hi := hrest s (by simp)
    have hrest' : ∀ t ∈ rest, t.lo ≤ t.hi := fun t ht => hrest t (by simp [ht])
    obtain ⟨hcurs, hsorted'⟩ := List.pairwise_cons.1 hsorted
    have hcs : cur.lo ≤ s.lo := hcurs s (by simp)
    simp only [join]
    split
    · refine ih ?_ hrest' (List.pairwise_cons.2 ⟨fun t ht => hcurs t (by simp [ht]),
        (List.pairwise_cons.1 hsorted').2⟩)
      split
      · exact UInt32.le_trans hcs hs
      · exact hcur
    · rename_i hgap
      rw [le_codePointAfter_iff] at hgap
      obtain ⟨hsep, hlo⟩ := ih hs hrest' hsorted'
      refine ⟨.cons hcur hsep fun t ht => ?_, fun t ht => ?_⟩
      · have := UInt32.le_iff_toNat_le.1 (hlo t ht)
        omega
      · rcases List.mem_cons.1 ht with rfl | ht
        · exact UInt32.le_refl _
        · exact UInt32.le_trans hcs (hlo t ht)

/-- Sorting puts spans in the order of their starts. -/
theorem pairwise_sort (spans : List Span) :
    (spans.mergeSort fun s t => s.lo ≤ t.lo).Pairwise fun s t => s.lo ≤ t.lo := by
  have h := @List.pairwise_mergeSort _ (fun s t : Span => decide (s.lo ≤ t.lo))
    (fun a b c hab hbc => by
      simp only [decide_eq_true_eq] at *
      exact UInt32.le_trans hab hbc)
    (fun a b => by
      simp only [Bool.or_eq_true, decide_eq_true_eq]
      exact UInt32.le_total _ _)
    spans
  exact h.imp of_decide_eq_true

/-- The spans that are joined are the proper ones. -/
theorem mem_sort_filter {spans : List Span} {s : Span} :
    s ∈ (spans.filter fun s => decide (s.lo ≤ s.hi)).mergeSort (fun s t => decide (s.lo ≤ t.lo)) ↔
      s ∈ spans ∧ s.lo ≤ s.hi := by
  rw [(List.mergeSort_perm _ _).mem_iff, List.mem_filter, decide_eq_true_iff]

/-- Sorting and joining separates any spans. -/
theorem separated_joinAll (spans : List Span) : Separated (joinAll spans) := by
  have hsorted := pairwise_sort (spans.filter fun s => s.lo ≤ s.hi)
  have hproper : ∀ s ∈ (spans.filter fun s => decide (s.lo ≤ s.hi)).mergeSort
      (fun s t => decide (s.lo ≤ t.lo)), s.lo ≤ s.hi := fun s hs => (mem_sort_filter.1 hs).2
  unfold joinAll
  split
  · exact .nil
  · rename_i s rest heq
    rw [heq] at hsorted hproper
    exact (separated_join (hproper s (by simp)) (fun t ht => hproper t (by simp [ht])) hsorted).1

/-! ## Complement -/

/-- The characters from `next` on that separated spans leave out. -/
def gaps (next : UInt32) : List Span → List Span
  | [] => if next ≤ maxChar then [⟨next, maxChar⟩] else []
  | s :: rest =>
    if next < s.lo then ⟨next, s.lo - 1⟩ :: gaps (codePointAfter s.hi) rest
    else gaps (codePointAfter s.hi) rest

end Span

/-- The gaps from behind a span on start behind it. That is so at the end of the code points too,
where `codePointAfter` stays: no gap is left there. -/
theorem Span.lt_lo_of_mem_gaps {s t : Span} {rest : List Span}
    (hapart : ∀ u ∈ rest, s.hi.toNat + 1 < u.lo.toNat)
    (ht : t ∈ gaps (codePointAfter s.hi) rest) (hle : codePointAfter s.hi ≤ t.lo) :
    s.hi.toNat < t.lo.toNat := by
  rw [UInt32.le_iff_toNat_le, toNat_codePointAfter] at hle
  by_cases hmax : s.hi.toNat = 0xFFFFFFFF
  · have hnil : rest = [] := by
      rcases rest with _ | ⟨u, rest⟩
      · rfl
      · have := hapart u (by simp)
        have := u.lo.toNat_lt
        omega
    subst hnil
    have hbig : ¬ codePointAfter s.hi ≤ maxChar := by
      rw [UInt32.le_iff_toNat_le, toNat_codePointAfter, hmax]
      decide
    simp [gaps, hbig] at ht
  · have := s.hi.toNat_lt
    omega

/-- The gaps between separated spans are separated: each ends right before a span, and the next
starts right behind it. -/
theorem Span.separated_gaps {spans : List Span} : ∀ {next : UInt32}, Separated spans →
    (∀ s ∈ spans, next ≤ s.lo) →
    Separated (gaps next spans) ∧ ∀ t ∈ gaps next spans, next ≤ t.lo := by
  induction spans with
  | nil =>
    intro next _ _
    simp only [gaps]
    split
    · rename_i h; exact ⟨.singleton h, by simp⟩
    · exact ⟨.nil, by simp⟩
  | cons s rest ih =>
    intro next hsep hnext
    have hs : s.lo.toNat ≤ s.hi.toNat := UInt32.le_iff_toNat_le.1 (hsep.proper s (by simp))
    have hns : next.toNat ≤ s.lo.toNat := UInt32.le_iff_toNat_le.1 (hnext s (by simp))
    have hapart := (List.pairwise_cons.1 hsep.apart).1
    obtain ⟨hrest, hlo⟩ := @ih (codePointAfter s.hi) hsep.tail (fun t ht => by
      have := hapart t ht
      rw [UInt32.le_iff_toNat_le, toNat_codePointAfter]
      omega)
    have hafter : ∀ t ∈ gaps (codePointAfter s.hi) rest, s.lo.toNat < t.lo.toNat := by
      intro t ht
      have := lt_lo_of_mem_gaps hapart ht (hlo t ht)
      omega
    simp only [gaps]
    split
    · rename_i hlt
      have hlt := UInt32.lt_iff_toNat_lt.1 hlt
      have hpred : (s.lo - 1).toNat = s.lo.toNat - 1 :=
        UInt32.toNat_sub_of_le _ _ (UInt32.le_iff_toNat_le.2 (by simp; omega))
      refine ⟨.cons ?_ hrest fun t ht => ?_, fun t ht => ?_⟩
      · rw [UInt32.le_iff_toNat_le, hpred]
        simp only
        omega
      · have := hafter t ht
        simp only [hpred]
        omega
      · rcases List.mem_cons.1 ht with rfl | ht
        · exact UInt32.le_refl _
        · have := hafter t ht
          exact UInt32.le_iff_toNat_le.2 (by omega)
    · refine ⟨hrest, fun t ht => ?_⟩
      have := hafter t ht
      exact UInt32.le_iff_toNat_le.2 (by omega)

/-- A finite set of code points. -/
structure CharClass where
  spans : List Span
  separated : Span.Separated spans
deriving DecidableEq

namespace CharClass

/-- The class of all code points of the given spans; a span with `lo` above `hi` is empty. -/
def ofSpans (spans : List Span) : CharClass :=
  ⟨Span.joinAll spans, Span.separated_joinAll spans⟩

/-- The class without members. -/
def empty : CharClass := ⟨[], .nil⟩

instance : Inhabited CharClass := ⟨empty⟩

/-- The class of one character. -/
def single (c : Char) : CharClass :=
  ⟨[⟨c.val, c.val⟩], .singleton (UInt32.le_refl _)⟩

/-- The characters from `lo` to `hi`, none if `lo` comes after `hi`. -/
def range (lo hi : Char) : CharClass :=
  ofSpans [⟨lo.val, hi.val⟩]

/-- The code points of either class. -/
def union (a b : CharClass) : CharClass :=
  ofSpans (a.spans ++ b.spans)

/-- The Unicode code points outside the class. -/
def negate (a : CharClass) : CharClass :=
  ⟨Span.gaps 0 a.spans, (Span.separated_gaps a.separated fun s _ => by
    rw [UInt32.le_iff_toNat_le]; simp).1⟩

/-- The code point belongs to the class. -/
def contains (a : CharClass) (cp : UInt32) : Bool :=
  a.spans.any (·.contains cp)

/-- No code point belongs to the class. -/
def isEmpty (a : CharClass) : Bool :=
  a.spans.isEmpty

/-! ## Shorthands -/

/-- Every character but the line feed. -/
def anyButNewline : CharClass := (single '\n').negate

/-- The ten ASCII digits. -/
def digit : CharClass := range '0' '9'

/-- ASCII letters, digits and the underscore. -/
def word : CharClass :=
  ((range '0' '9').union (range 'A' 'Z')).union ((single '_').union (range 'a' 'z'))

/-- ASCII white space: tab to carriage return, and the blank. -/
def space : CharClass :=
  (range '\t' '\r').union (single ' ')

end CharClass

end MaximalMunch
