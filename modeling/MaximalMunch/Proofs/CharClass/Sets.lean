import MaximalMunch.Proofs.CharClass.Unicode

/-!
# Classes as sets

What the operations on classes do to the set of members: `contains_union`, `contains_negate`,
`contains_range`, `contains_single`. The separated form is unique, so classes with the same members
are equal (`CharClass.ext_of_contains`).
-/

namespace MaximalMunch

namespace Span

/-- The code point lies in one of the spans. -/
def Covers (spans : List Span) (cp : UInt32) : Prop := ∃ s ∈ spans, s.contains cp = true

variable {s t : Span} {spans rest : List Span} {cp : UInt32}

/-- No spans cover nothing. -/
theorem not_covers_nil : ¬ Covers [] cp := fun ⟨_, hs, _⟩ => absurd hs List.not_mem_nil

/-- A code point is covered by the first span or by a later one. -/
theorem covers_cons : Covers (s :: rest) cp ↔ s.contains cp = true ∨ Covers rest cp := by
  simp [Covers]

/-- A code point is covered by spans of the one list or of the other. -/
theorem covers_append : Covers (spans ++ rest) cp ↔ Covers spans cp ∨ Covers rest cp := by
  simp only [Covers, List.mem_append, or_and_right, exists_or]

/-- What is covered by spans that all begin behind a number lies behind it. -/
theorem lt_of_covers {n : Nat} (h : ∀ t ∈ spans, n < t.lo.toNat) (hcp : Covers spans cp) :
    n < cp.toNat := by
  obtain ⟨t, ht, hin⟩ := hcp
  exact Nat.lt_of_lt_of_le (h t ht) (contains_iff.1 hin).1

/-! ## Joining -/

/-- Joining spans that start in increasing order covers the same code points. -/
theorem covers_join : ∀ {cur : Span}, cur.lo ≤ cur.hi → (∀ s ∈ rest, s.lo ≤ s.hi) →
    (cur :: rest).Pairwise (fun s t => s.lo ≤ t.lo) →
      (Covers (join cur rest) cp ↔ Covers (cur :: rest) cp) := by
  induction rest with
  | nil => intro cur _ _ _; rfl
  | cons s rest ih =>
    intro cur hcur hall hsorted
    obtain ⟨hs, hrest⟩ := List.forall_mem_cons.1 hall
    obtain ⟨hfirst, htail⟩ := List.pairwise_cons.1 hsorted
    obtain ⟨hcs, hcrest⟩ := List.forall_mem_cons.1 hfirst
    unfold join
    split
    · rename_i htouch
      rw [le_codePointAfter_iff] at htouch
      have hmax : (if cur.hi ≤ s.hi then s.hi else cur.hi).toNat =
          max cur.hi.toNat s.hi.toNat := by
        split
        · rename_i hle
          rw [UInt32.le_iff_toNat_le] at hle
          omega
        · rename_i hle
          rw [UInt32.le_iff_toNat_le] at hle
          omega
      have hcur' := UInt32.le_iff_toNat_le.1 hcur
      have hs' := UInt32.le_iff_toNat_le.1 hs
      have hcs' := UInt32.le_iff_toNat_le.1 hcs
      generalize (if cur.hi ≤ s.hi then s.hi else cur.hi) = hi at hmax ⊢
      have hproper : cur.lo ≤ hi := by
        rw [UInt32.le_iff_toNat_le, hmax]
        omega
      rw [@ih ⟨cur.lo, hi⟩ hproper hrest
        (List.pairwise_cons.2 ⟨hcrest, (List.pairwise_cons.1 htail).2⟩), covers_cons, covers_cons,
        covers_cons, ← or_assoc]
      apply or_congr_left
      -- the span that covers both begins with the first and ends with the longer one
      rw [contains_iff, contains_iff, contains_iff, hmax]
      show cur.lo.toNat ≤ cp.toNat ∧ _ ↔ _
      omega
    · rw [covers_cons, covers_cons, ih hs hrest htail]

/-- Joining spans changes nothing about what they cover. -/
theorem covers_joinAll : Covers (joinAll spans) cp ↔ Covers spans cp := by
  have hsorted := pairwise_sort (spans.filter fun s => s.lo ≤ s.hi)
  -- a span that covers anything is proper, so the others may be dropped
  have hkept : Covers spans cp ↔ Covers ((spans.filter fun s => decide (s.lo ≤ s.hi)).mergeSort
      (fun s t => decide (s.lo ≤ t.lo))) cp := by
    constructor
    · rintro ⟨s, hs, hin⟩
      have hbounds := contains_iff.1 hin
      have hproper := UInt32.le_iff_toNat_le.2 (Nat.le_trans hbounds.1 hbounds.2)
      exact ⟨s, mem_sort_filter.2 ⟨hs, hproper⟩, hin⟩
    · rintro ⟨s, hs, hin⟩
      exact ⟨s, (mem_sort_filter.1 hs).1, hin⟩
  have hproper : ∀ s ∈ (spans.filter fun s => decide (s.lo ≤ s.hi)).mergeSort
      (fun s t => decide (s.lo ≤ t.lo)), s.lo ≤ s.hi := fun s hs => (mem_sort_filter.1 hs).2
  rw [hkept, joinAll]
  split
  · rename_i heq
    rw [heq]
  · rename_i first rest heq
    rw [heq] at hsorted hproper
    rw [heq]
    obtain ⟨hfirst, hrest⟩ := List.forall_mem_cons.1 hproper
    exact covers_join hfirst hrest hsorted

/-! ## Complement -/

/-- The gaps from `next` on cover the characters from there on that the spans leave out. -/
theorem covers_gaps (hcp : cp ≤ maxChar) : ∀ {next : UInt32}, Separated spans →
    (∀ s ∈ spans, next ≤ s.lo) → (Covers (gaps next spans) cp ↔ next ≤ cp ∧ ¬ Covers spans cp) := by
  have hmax : cp.toNat ≤ 0x10FFFF := UInt32.le_iff_toNat_le.1 hcp
  induction spans with
  | nil =>
    intro next _ _
    unfold gaps
    split
    · rw [covers_cons, or_iff_left not_covers_nil, and_iff_left not_covers_nil, contains_iff,
        UInt32.le_iff_toNat_le]
      exact and_iff_left hmax
    · rename_i hnext
      rw [UInt32.le_iff_toNat_le] at hnext
      rw [UInt32.le_iff_toNat_le]
      refine ⟨fun h => absurd h not_covers_nil, fun h => ?_⟩
      exact absurd (Nat.le_trans h.1 hmax) hnext
  | cons s rest ih =>
    intro next hsep hnext
    have hs : s.lo.toNat ≤ s.hi.toNat := UInt32.le_iff_toNat_le.1 (hsep.proper s List.mem_cons_self)
    have hns : next.toNat ≤ s.lo.toNat := UInt32.le_iff_toNat_le.1 (hnext s List.mem_cons_self)
    -- spans lie apart, so the gap behind `s` begins in front of the next span
    have hapart := (List.pairwise_cons.1 hsep.apart).1
    have hbehind : Covers rest cp → s.hi.toNat + 1 < cp.toNat := lt_of_covers hapart
    have hafter : codePointAfter s.hi ≤ cp ↔ s.hi.toNat < cp.toNat := by
      rw [UInt32.le_iff_toNat_le, toNat_codePointAfter]
      omega
    have hnext' : ∀ t ∈ rest, codePointAfter s.hi ≤ t.lo := fun t ht => by
      have := hapart t ht
      rw [UInt32.le_iff_toNat_le, toNat_codePointAfter]
      omega
    have hrest := ih hsep.tail hnext'
    rw [hafter] at hrest
    unfold gaps
    rw [covers_cons (s := s), contains_iff, UInt32.le_iff_toNat_le]
    split
    · -- there is a gap in front of `s`, up to the code point before it
      rename_i hlt
      have hlt := UInt32.lt_iff_toNat_lt.1 hlt
      have hpred : (s.lo - 1).toNat = s.lo.toNat - 1 :=
        UInt32.toNat_sub_of_le _ _ (UInt32.le_iff_toNat_le.2 (by simp; omega))
      rw [covers_cons, hrest, contains_iff, hpred]
      show next.toNat ≤ cp.toNat ∧ _ ∨ _ ↔ _
      by_cases hc : Covers rest cp
      · have := hbehind hc
        simp only [hc, not_true_eq_false, and_false, or_true, or_false, iff_false, not_and]
        omega
      · simp only [hc, not_false_eq_true, and_true, or_false]
        omega
    · rename_i hlt
      rw [UInt32.lt_iff_toNat_lt] at hlt
      rw [hrest]
      by_cases hc : Covers rest cp
      · simp [hc]
      · simp only [hc, not_false_eq_true, and_true, or_false]
        omega

/-! ## One form for each set -/

/-- Separated spans that begin with `s` cover nothing below it and nothing right behind it. -/
theorem Separated.bounds (h : Separated (s :: rest)) (hcp : Covers (s :: rest) cp) :
    s.lo.toNat ≤ cp.toNat ∧ (cp.toNat ≤ s.hi.toNat ∨ s.hi.toNat + 1 < cp.toNat) := by
  have hs := UInt32.le_iff_toNat_le.1 (h.proper s List.mem_cons_self)
  rcases covers_cons.1 hcp with hin | hrest
  · have := contains_iff.1 hin
    omega
  · have := lt_of_covers (List.pairwise_cons.1 h.apart).1 hrest
    omega

/-- The first span is the same if the covered code points are. -/
theorem Separated.head_eq {rest' : List Span} (hs : Separated (s :: rest))
    (ht : Separated (t :: rest')) (h : ∀ cp, Covers (s :: rest) cp ↔ Covers (t :: rest') cp) :
    s = t := by
  have hsproper := UInt32.le_iff_toNat_le.1 (hs.proper s List.mem_cons_self)
  have htproper := UInt32.le_iff_toNat_le.1 (ht.proper t List.mem_cons_self)
  have hself : ∀ {u : Span} {us : List Span} (cp : UInt32), u.lo.toNat ≤ cp.toNat →
      cp.toNat ≤ u.hi.toNat → Covers (u :: us) cp := fun cp hlo hhi =>
    covers_cons.2 (Or.inl (contains_iff.2 ⟨hlo, hhi⟩))
  have hslo := ht.bounds ((h _).1 (hself s.lo (Nat.le_refl _) hsproper))
  have htlo := hs.bounds ((h _).2 (hself t.lo (Nat.le_refl _) htproper))
  -- a span that ended earlier would leave a gap right behind it
  have hle : ∀ {u v : Span} {us vs : List Span}, Separated (u :: us) → Separated (v :: vs) →
      (∀ cp, Covers (v :: vs) cp → Covers (u :: us) cp) → u.lo.toNat = v.lo.toNat →
        u.lo.toNat ≤ u.hi.toNat → v.hi.toNat ≤ u.hi.toNat := by
    intro u v us vs hu _ hsub hlo hproper
    apply Nat.le_of_not_lt
    intro hlt
    have hbound := v.hi.toNat_lt
    have hnext : (UInt32.ofNat (u.hi.toNat + 1)).toNat = u.hi.toNat + 1 :=
      UInt32.toNat_ofNat_of_lt' (by show _ < 4294967296; omega)
    have := hu.bounds (hsub (.ofNat (u.hi.toNat + 1)) (hself _ (by omega) (by omega)))
    omega
  have hlo : s.lo.toNat = t.lo.toNat := by omega
  have h₁ := hle hs ht (fun cp => (h cp).2) hlo hsproper
  have h₂ := hle ht hs (fun cp => (h cp).1) hlo.symm htproper
  have hlo' : s.lo = t.lo := UInt32.toNat.inj hlo
  have hhi' : s.hi = t.hi := UInt32.toNat.inj (Nat.le_antisymm h₂ h₁)
  cases s
  cases t
  exact congr (congrArg Span.mk hlo') hhi'

/-- Separated spans are determined by the code points that they cover. -/
theorem Separated.eq_of_covers : ∀ {spans spans' : List Span}, Separated spans → Separated spans' →
    (∀ cp, Covers spans cp ↔ Covers spans' cp) → spans = spans' := by
  have hcovered : ∀ {u : Span} {us : List Span}, Separated (u :: us) → Covers (u :: us) u.lo :=
    fun h => covers_cons.2 (Or.inl (contains_iff.2
      ⟨Nat.le_refl _, UInt32.le_iff_toNat_le.1 (h.proper _ List.mem_cons_self)⟩))
  intro spans
  induction spans with
  | nil =>
    intro spans' _ h' h
    cases spans' with
    | nil => rfl
    | cons t rest' => exact absurd ((h _).2 (hcovered h')) not_covers_nil
  | cons s rest ih =>
    intro spans' hs h' h
    cases spans' with
    | nil => exact absurd ((h _).1 (hcovered hs)) not_covers_nil
    | cons t rest' =>
      obtain rfl := hs.head_eq h' h
      refine congrArg (s :: ·) (ih hs.tail h'.tail fun cp => ?_)
      have hcp := h cp
      rw [covers_cons, covers_cons, contains_iff] at hcp
      -- the other spans lie behind the first
      constructor
      · intro hrest
        have := lt_of_covers (List.pairwise_cons.1 hs.apart).1 hrest
        exact (hcp.1 (Or.inr hrest)).resolve_left fun hin => by omega
      · intro hrest
        have := lt_of_covers (List.pairwise_cons.1 h'.apart).1 hrest
        exact (hcp.2 (Or.inr hrest)).resolve_left fun hin => by omega

end Span

namespace CharClass

variable {a b : CharClass} {cp : UInt32}

/-- The members of a class are what its spans cover. -/
theorem contains_iff_covers : a.contains cp = true ↔ Span.Covers a.spans cp := contains_iff

/-- The spans given to a class need neither order nor gaps. -/
theorem contains_ofSpans {spans : List Span} :
    (ofSpans spans).contains cp = true ↔ Span.Covers spans cp :=
  contains_iff_covers.trans Span.covers_joinAll

/-- The empty class has no members. -/
theorem contains_empty : CharClass.empty.contains cp = false := rfl

/-- The class of a character has it as its only member. -/
theorem contains_single {c : Char} : (single c).contains cp = true ↔ cp = c.val := by
  rw [contains_iff_covers, single, Span.covers_cons, Span.contains_iff, ← UInt32.toNat_inj]
  have hnil := @Span.not_covers_nil cp
  show c.val.toNat ≤ cp.toNat ∧ cp.toNat ≤ c.val.toNat ∨ _ ↔ _
  constructor
  · rintro (h | h)
    · omega
    · exact absurd h hnil
  · intro h
    exact Or.inl (by omega)

/-- The members of a range lie between its ends. -/
theorem contains_range {lo hi : Char} :
    (range lo hi).contains cp = true ↔ lo.val ≤ cp ∧ cp ≤ hi.val := by
  rw [range, contains_ofSpans, Span.covers_cons, Span.contains_iff, UInt32.le_iff_toNat_le,
    UInt32.le_iff_toNat_le]
  exact or_iff_left Span.not_covers_nil

/-- The members of a union are those of the two classes. -/
theorem contains_union :
    (a.union b).contains cp = true ↔ a.contains cp = true ∨ b.contains cp = true := by
  rw [union, contains_ofSpans, Span.covers_append, contains_iff_covers, contains_iff_covers]

/-- Of the Unicode code points a class and its complement have each exactly one. -/
theorem contains_negate (hcp : cp ≤ maxChar) :
    a.negate.contains cp = true ↔ ¬ a.contains cp = true := by
  rw [contains_iff_covers, contains_iff_covers, negate,
    Span.covers_gaps hcp a.separated fun s _ => by rw [UInt32.le_iff_toNat_le]; simp]
  exact and_iff_right (by rw [UInt32.le_iff_toNat_le]; simp)

/-- The complement of a class of Unicode code points has the other ones. -/
theorem Unicode.contains_negate (ha : a.Unicode) :
    a.negate.contains cp = true ↔ cp ≤ maxChar ∧ ¬ a.contains cp = true :=
  ⟨fun h => ⟨ha.negate.le_maxChar h, (CharClass.contains_negate (ha.negate.le_maxChar h)).1 h⟩,
    fun h => (CharClass.contains_negate h.1).2 h.2⟩

/-- An empty class has no members. -/
theorem isEmpty_iff : a.isEmpty = true ↔ ∀ cp, ¬ a.contains cp = true := by
  rw [isEmpty, List.isEmpty_iff]
  constructor
  · intro h cp hcp
    rw [contains_iff_covers, h] at hcp
    exact Span.not_covers_nil hcp
  · intro h
    refine List.eq_nil_iff_forall_not_mem.2 fun s hs => h s.lo (contains_iff.2 ⟨s, hs, ?_⟩)
    exact Span.contains_iff.2 ⟨Nat.le_refl _, UInt32.le_iff_toNat_le.1 (a.separated.proper s hs)⟩

/-- A class that is not empty has a member. -/
theorem not_isEmpty_iff : ¬ a.isEmpty = true ↔ ∃ cp, a.contains cp = true := by
  rw [isEmpty_iff, Classical.not_forall]
  simp only [Classical.not_not]

/-- A class is one of Unicode code points if its members are. -/
theorem unicode_iff : a.Unicode ↔ ∀ cp, a.contains cp = true → cp ≤ maxChar := by
  refine ⟨fun h cp hcp => h.le_maxChar hcp, fun h s hs => h s.hi (contains_iff.2 ⟨s, hs, ?_⟩)⟩
  exact Span.contains_iff.2 ⟨UInt32.le_iff_toNat_le.1 (a.separated.proper s hs), Nat.le_refl _⟩

/-- Classes with the same members are the same. -/
theorem ext_of_contains (h : ∀ cp, a.contains cp = true ↔ b.contains cp = true) : a = b := by
  have hspans : a.spans = b.spans := a.separated.eq_of_covers b.separated fun cp => by
    rw [← contains_iff_covers, ← contains_iff_covers, h]
  cases a
  cases b
  cases hspans
  rfl

/-- Spans that are separated are kept as they are. -/
theorem ofSpans_of_separated {spans : List Span} (h : Span.Separated spans) :
    ofSpans spans = ⟨spans, h⟩ :=
  ext_of_contains fun _ => contains_ofSpans.trans (@contains_iff_covers ⟨spans, h⟩ _).symm

end CharClass

end MaximalMunch
