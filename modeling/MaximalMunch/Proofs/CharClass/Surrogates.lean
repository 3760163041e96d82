import MaximalMunch.Proofs.CharClass.Sets

/-!
# Surrogates

Not every Unicode code point is a character: the surrogates are not. Ranges begin and end with
characters, so a class that is made from characters and ranges by union and complement has all
surrogates or none of them (`CharClass.Uniform`). Such a class has a character among its members,
or it has no members, or it is the class of the surrogates
(`CharClass.Uniform.matchable_or_eq_surrogates`).
-/

namespace MaximalMunch

variable {cp cp' : UInt32}

/-- The code point is no character, though there are characters above it. -/
def IsSurrogate (cp : UInt32) : Prop := 0xD800 ≤ cp.toNat ∧ cp.toNat ≤ 0xDFFF

instance (cp : UInt32) : Decidable (IsSurrogate cp) :=
  inferInstanceAs (Decidable (0xD800 ≤ cp.toNat ∧ cp.toNat ≤ 0xDFFF))

/-- No character is a surrogate. -/
theorem not_isSurrogate_val (c : Char) : ¬ IsSurrogate c.val := by
  rintro ⟨hlow, hhigh⟩
  have hvalid : c.val.toNat < 0xD800 ∨ (0xDFFF < c.val.toNat ∧ c.val.toNat < 0x110000) := c.valid
  omega

/-- Surrogates come before the last character. -/
theorem IsSurrogate.le_maxChar (h : IsSurrogate cp) : cp ≤ maxChar := by
  rw [UInt32.le_iff_toNat_le]
  exact Nat.le_trans h.2 (by decide)

/-- All other Unicode code points are characters. -/
theorem exists_val_eq (hmax : cp ≤ maxChar) (h : ¬ IsSurrogate cp) : ∃ c : Char, c.val = cp := by
  rw [UInt32.le_iff_toNat_le] at hmax
  have hmax : cp.toNat ≤ 0x10FFFF := hmax
  unfold IsSurrogate at h
  have hvalid : cp.toNat < 0xD800 ∨ (0xDFFF < cp.toNat ∧ cp.toNat < 0x110000) := by omega
  exact ⟨⟨cp, hvalid⟩, rfl⟩

namespace CharClass

variable {a b k : CharClass}

/-- The class of the surrogates. -/
def surrogates : CharClass := ⟨[⟨0xD800, 0xDFFF⟩], .singleton (by decide)⟩

/-- The class of the surrogates has the surrogates as members and nothing else. -/
theorem contains_surrogates : surrogates.contains cp = true ↔ IsSurrogate cp := by
  rw [contains_iff_covers, surrogates, Span.covers_cons, Span.contains_iff]
  exact or_iff_left Span.not_covers_nil

/-- A character is in the class. -/
def Matchable (k : CharClass) : Prop := ∃ c : Char, k.contains c.val = true

/-- No character is a surrogate. -/
theorem not_matchable_surrogates : ¬ surrogates.Matchable := by
  rintro ⟨c, hc⟩
  exact not_isSurrogate_val c (contains_surrogates.1 hc)

/-- The class of a character can be matched. -/
theorem Matchable.single (c : Char) : (single c).Matchable := ⟨c, contains_single.2 rfl⟩

/-- The class has all surrogates or none of them. -/
def Uniform (k : CharClass) : Prop :=
  ∀ ⦃cp cp'⦄, IsSurrogate cp → IsSurrogate cp' → k.contains cp = true → k.contains cp' = true

/-- The class of a character has no surrogates. -/
theorem Uniform.single (c : Char) : (single c).Uniform := by
  intro cp cp' hcp _ h
  rw [contains_single.1 h] at hcp
  exact absurd hcp (not_isSurrogate_val c)

/-- A range that begins below a surrogate and ends above it does so for all surrogates. -/
theorem Uniform.range (lo hi : Char) : (range lo hi).Uniform := by
  intro cp cp' hcp hcp' h
  rw [contains_range, UInt32.le_iff_toNat_le, UInt32.le_iff_toNat_le] at h ⊢
  have hlo := not_isSurrogate_val lo
  have hhi := not_isSurrogate_val hi
  unfold IsSurrogate at hcp hcp' hlo hhi
  omega

/-- The union of classes that have all surrogates or none has all or none. -/
theorem Uniform.union (ha : a.Uniform) (hb : b.Uniform) : (a.union b).Uniform := by
  intro cp cp' hcp hcp' h
  rw [contains_union] at h ⊢
  exact h.imp (ha hcp hcp') (hb hcp hcp')

/-- The complement of a class with all surrogates has none, and of one with none it has all. -/
theorem Uniform.negate (ha : a.Uniform) : a.negate.Uniform := by
  intro cp cp' hcp hcp' h
  rw [contains_negate hcp'.le_maxChar]
  rw [contains_negate hcp.le_maxChar] at h
  exact mt (ha hcp' hcp) h

/-- The digits have no surrogates. -/
theorem Uniform.digit : digit.Uniform := .range '0' '9'

/-- The characters of words have no surrogates. -/
theorem Uniform.word : word.Uniform :=
  ((Uniform.range '0' '9').union (.range 'A' 'Z')).union
    ((Uniform.single '_').union (.range 'a' 'z'))

/-- White space has no surrogates. -/
theorem Uniform.space : space.Uniform := (Uniform.range '\t' '\r').union (.single ' ')

/-- Of the Unicode code points in a uniform class one is a character, or they are the surrogates. -/
theorem Uniform.matchable_or_eq_surrogates (huniform : k.Uniform) (hunicode : k.Unicode)
    (hmember : ∃ cp, k.contains cp = true) : k.Matchable ∨ k = surrogates := by
  by_cases hchar : k.Matchable
  · exact Or.inl hchar
  · -- without a character all members are surrogates, and with one of them all are members
    have hsurrogate : ∀ cp, k.contains cp = true → IsSurrogate cp := by
      intro cp hcp
      apply Decidable.byContradiction
      intro hnot
      obtain ⟨c, rfl⟩ := exists_val_eq (hunicode.le_maxChar hcp) hnot
      exact hchar ⟨c, hcp⟩
    obtain ⟨cp, hcp⟩ := hmember
    refine Or.inr (ext_of_contains fun cp' => ?_)
    rw [contains_surrogates]
    exact ⟨hsurrogate cp', fun hcp' => huniform (hsurrogate cp hcp) hcp' hcp⟩

end CharClass

end MaximalMunch
