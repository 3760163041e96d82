import MaximalMunch.Proofs.CharClass.Atoms

/-!
# Classes of Unicode code points

A class may hold any 32-bit number, but the classes that patterns denote hold Unicode code points
only (`CharClass.Unicode`). Each operation on classes keeps it so.
-/

namespace MaximalMunch

/-- Characters are Unicode code points. -/
theorem val_le_maxChar (c : Char) : c.val ≤ maxChar := by
  rw [UInt32.le_iff_toNat_le]
  show c.toNat ≤ 0x10FFFF
  have hvalid : c.toNat < 0xD800 ∨ (0xDFFF < c.toNat ∧ c.toNat < 0x110000) := c.valid
  omega

namespace Span

/-- Joined spans end where some of the spans end. -/
theorem hi_le_of_mem_join {m : UInt32} {rest : List Span} : ∀ {cur : Span}, cur.hi ≤ m →
    (∀ s ∈ rest, s.hi ≤ m) → ∀ t ∈ join cur rest, t.hi ≤ m := by
  induction rest with
  | nil =>
    intro cur hcur _ t ht
    rw [List.mem_singleton.1 ht]
    exact hcur
  | cons s rest ih =>
    intro cur hcur hall t ht
    obtain ⟨hs, hrest⟩ := List.forall_mem_cons.1 hall
    unfold join at ht
    split at ht
    · refine ih ?_ hrest t ht
      -- joined spans end with the later of the two ends
      show (if cur.hi ≤ s.hi then s.hi else cur.hi) ≤ m
      split
      · exact hs
      · exact hcur
    · rcases List.mem_cons.1 ht with rfl | ht
      · exact hcur
      · exact ih hs hrest t ht

/-- Joined spans end where the spans do. -/
theorem hi_le_of_mem_joinAll {m : UInt32} {spans : List Span} (h : ∀ s ∈ spans, s.hi ≤ m) :
    ∀ t ∈ joinAll spans, t.hi ≤ m := by
  have hsorted : ∀ s ∈ (spans.filter fun s => decide (s.lo ≤ s.hi)).mergeSort
      (fun s t => decide (s.lo ≤ t.lo)), s.hi ≤ m := fun s hs =>
    h s (List.mem_filter.1 (List.mem_mergeSort.1 hs)).1
  unfold joinAll
  split
  · exact fun t ht => absurd ht List.not_mem_nil
  · rename_i s rest heq
    rw [heq] at hsorted
    obtain ⟨hs, hrest⟩ := List.forall_mem_cons.1 hsorted
    exact hi_le_of_mem_join hs hrest

/-- Gaps lie among the Unicode code points. -/
theorem hi_le_of_mem_gaps {spans : List Span} : ∀ {next : UInt32}, (∀ s ∈ spans, s.hi ≤ maxChar) →
    (∀ s ∈ spans, s.lo ≤ s.hi) → ∀ t ∈ gaps next spans, t.hi ≤ maxChar := by
  induction spans with
  | nil =>
    intro next _ _ t ht
    unfold gaps at ht
    split at ht
    · rw [List.mem_singleton.1 ht]
      exact UInt32.le_refl _
    · exact absurd ht List.not_mem_nil
  | cons s rest ih =>
    intro next hhi hproper t ht
    obtain ⟨hs, hrest⟩ := List.forall_mem_cons.1 hhi
    obtain ⟨hlo, hproper'⟩ := List.forall_mem_cons.1 hproper
    unfold gaps at ht
    split at ht
    · rename_i hlt
      rcases List.mem_cons.1 ht with rfl | ht
      · -- the gap ends right below the span
        have hpos := UInt32.lt_iff_toNat_lt.1 hlt
        have hpred : (s.lo - 1).toNat = s.lo.toNat - 1 :=
          UInt32.toNat_sub_of_le _ _ (UInt32.le_iff_toNat_le.2 (by simp; omega))
        rw [UInt32.le_iff_toNat_le] at hs hlo ⊢
        rw [hpred]
        omega
      · exact ih hrest hproper' t ht
    · exact ih hrest hproper' t ht

/-- Atoms end where some of the spans end. -/
theorem hi_le_of_mem_atoms {m : UInt32} {spans : List Span}
    (h : ∀ s ∈ spans, s.lo ≤ s.hi ∧ s.hi ≤ m) {a : Span} (ha : a ∈ atoms spans) : a.hi ≤ m := by
  obtain ⟨-, -, hcut, -⟩ :=
    exists_bounds_of_mem_between (pairwise_cuts spans) (fun _ => le_of_mem_cuts) ha
  obtain ⟨s, hs, heq⟩ := mem_cuts.1 hcut
  obtain ⟨hlo, hhi⟩ := h s hs
  rw [UInt32.le_iff_toNat_le] at hlo hhi ⊢
  omega

end Span

namespace CharClass

/-- All members are Unicode code points. -/
def Unicode (k : CharClass) : Prop :=
  ∀ s ∈ k.spans, s.hi ≤ maxChar

variable {k l : CharClass}

/-- The members of such a class are Unicode code points. -/
theorem Unicode.le_maxChar (h : k.Unicode) {cp : UInt32} (hcp : k.contains cp = true) :
    cp ≤ maxChar := by
  obtain ⟨s, hs, hin⟩ := contains_iff.1 hcp
  have hhi := h s hs
  rw [Span.contains_iff] at hin
  rw [UInt32.le_iff_toNat_le] at hhi ⊢
  exact Nat.le_trans hin.2 hhi

/-- The class of a character holds Unicode code points only. -/
theorem Unicode.single (c : Char) : (CharClass.single c).Unicode := by
  intro s hs
  rw [List.mem_singleton.1 hs]
  exact val_le_maxChar c

/-- So does a range of characters. -/
theorem Unicode.range (lo hi : Char) : (CharClass.range lo hi).Unicode :=
  Span.hi_le_of_mem_joinAll (by simpa using val_le_maxChar hi)

/-- So does a union of such classes. -/
theorem Unicode.union (hk : k.Unicode) (hl : l.Unicode) : (k.union l).Unicode :=
  Span.hi_le_of_mem_joinAll (List.forall_mem_append.2 ⟨hk, hl⟩)

/-- The complement is taken within Unicode. -/
theorem Unicode.negate (hk : k.Unicode) : k.negate.Unicode :=
  Span.hi_le_of_mem_gaps hk k.separated.proper

/-- The dot stands for Unicode code points only. -/
theorem Unicode.anyButNewline : CharClass.anyButNewline.Unicode := (Unicode.single _).negate

/-- Digits are Unicode code points. -/
theorem Unicode.digit : CharClass.digit.Unicode := .range _ _

/-- The characters of words are Unicode code points. -/
theorem Unicode.word : CharClass.word.Unicode :=
  ((Unicode.range _ _).union (.range _ _)).union ((Unicode.single _).union (.range _ _))

/-- White space consists of Unicode code points. -/
theorem Unicode.space : CharClass.space.Unicode := (Unicode.range _ _).union (.single _)

end CharClass

end MaximalMunch
