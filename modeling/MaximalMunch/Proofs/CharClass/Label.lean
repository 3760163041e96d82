import MaximalMunch.CharClass.Label
import MaximalMunch.Dfa.Listing
import MaximalMunch.Proofs.CharClass.Surrogates
import MaximalMunch.Proofs.Text.Hexadecimal

/-!
# Reading labels

The text of a code point shows where it ends, and it begins neither with a hyphen nor with a
bracket that closes. So the spans between brackets can be told from each other
(`Span.flatMap_labelChars_inj`), and a single code point from brackets: labels are different if
classes are (`CharClass.label_injective`). The line of an edge shows the label and the target, as
what follows the last arrow has no letter.
-/

namespace MaximalMunch

variable {a b : UInt32} {r r' : List Char}

/-- A list can be cut at its first `x` in one way only. -/
theorem append_cons_inj_of_notMem_left {α : Type} {x : α} {l l' r r' : List α} (hl : x ∉ l)
    (hl' : x ∉ l') (h : l ++ x :: r = l' ++ x :: r') : l = l' ∧ r = r' := by
  induction l generalizing l' with
  | nil =>
    cases l' with
    | nil => exact ⟨rfl, (List.cons.inj h).2⟩
    | cons y l' => exact absurd (List.mem_cons.2 (Or.inl (List.cons.inj h).1)) hl'
  | cons y l ih =>
    cases l' with
    | nil => exact absurd (List.mem_cons.2 (Or.inl (List.cons.inj h).1.symm)) hl
    | cons z l' =>
      obtain ⟨rfl, htail⟩ := List.cons.inj h
      obtain ⟨rfl, hr⟩ := ih (mt (List.mem_cons_of_mem y) hl) (mt (List.mem_cons_of_mem y) hl')
        htail
      exact ⟨rfl, hr⟩

/-- A list can be cut at its last `x` in one way only. -/
theorem append_cons_inj_of_notMem_right {α : Type} {x : α} {l l' r r' : List α} (hr : x ∉ r)
    (hr' : x ∉ r') (h : l ++ x :: r = l' ++ x :: r') : l = l' ∧ r = r' := by
  have hreverse : r.reverse ++ x :: l.reverse = r'.reverse ++ x :: l'.reverse := by
    simpa using congrArg List.reverse h
  obtain ⟨hback, hfront⟩ := append_cons_inj_of_notMem_left (mt List.mem_reverse.1 hr)
    (mt List.mem_reverse.1 hr') hreverse
  exact ⟨List.reverse_inj.1 hfront, List.reverse_inj.1 hback⟩

/-! ## Code points -/

/-- A code point is written as a character of its own, which is none of the four with a meaning, or
as a numeral. -/
theorem labelOfCodePoint_cases (cp : UInt32) :
    (∃ c : Char, c.val = cp ∧ c ∉ ['\\', ']', '-', '^'] ∧ labelOfCodePoint cp = [c]) ∨
      labelOfCodePoint cp = '\\' :: 'u' :: '{' :: (Text.hexUpper cp.toNat ++ ['}']) := by
  unfold labelOfCodePoint
  split
  · rename_i hplain
    simp only [isPlainInLabel, Bool.and_eq_true, decide_eq_true_eq] at hplain
    obtain ⟨⟨-, hle⟩, hnot⟩ := hplain
    have hle : cp.toNat ≤ 0x7E := UInt32.le_iff_toNat_le.1 hle
    have hmax : cp ≤ maxChar := UInt32.le_iff_toNat_le.2 (Nat.le_trans hle (by decide))
    -- a plain code point is far below the surrogates
    obtain ⟨c, rfl⟩ := exists_val_eq hmax fun hsurrogate => by
      unfold IsSurrogate at hsurrogate
      omega
    refine Or.inl ⟨c, rfl, fun hmem => ?_, by rw [Char.toNat_val, Char.ofNat_toNat]⟩
    have hany : (['\\', ']', '-', '^'].any fun d => d.val == c.val) = true :=
      List.any_eq_true.2 ⟨c, hmem, beq_self_eq_true _⟩
    rw [hany] at hnot
    exact absurd hnot (by decide)
  · exact Or.inr rfl

/-- What a code point is written as begins neither with a hyphen nor with a bracket that closes. -/
theorem exists_labelOfCodePoint_eq_cons (cp : UInt32) :
    ∃ c cs, labelOfCodePoint cp = c :: cs ∧ c ≠ '-' ∧ c ≠ ']' := by
  obtain ⟨c, -, hc, h⟩ | h := labelOfCodePoint_cases cp
  · exact ⟨c, [], h, by rintro rfl; simp at hc, by rintro rfl; simp at hc⟩
  · exact ⟨'\\', _, h, by decide, by decide⟩

/-- No numeral has a brace. -/
theorem brace_notMem_hexUpper (n : Nat) : '}' ∉ Text.hexUpper n := by
  intro hmem
  obtain ⟨i, hi, h⟩ := Text.exists_hexDigit_of_mem hmem
  have hdigits : ∀ i < 16, '}' ≠ Text.hexDigit i := by decide
  exact hdigits i hi h

/-- Whatever comes behind a code point, one can tell the code point and where it ends. -/
theorem labelOfCodePoint_append_inj (h : labelOfCodePoint a ++ r = labelOfCodePoint b ++ r') :
    a = b ∧ r = r' := by
  obtain ⟨c, rfl, hc, ha⟩ | ha := labelOfCodePoint_cases a <;>
    obtain ⟨d, rfl, hd, hb⟩ | hb := labelOfCodePoint_cases b <;> rw [ha, hb] at h
  · obtain ⟨rfl, hr⟩ := List.cons.inj h
    exact ⟨rfl, hr⟩
  · obtain ⟨rfl, -⟩ := List.cons.inj h
    simp at hc
  · obtain ⟨rfl, -⟩ := List.cons.inj h
    simp at hd
  · simp only [List.cons_append, List.cons.injEq, true_and, List.append_assoc,
      List.nil_append] at h
    obtain ⟨hnumeral, hr⟩ := append_cons_inj_of_notMem_left (brace_notMem_hexUpper _)
      (brace_notMem_hexUpper _) h
    exact ⟨UInt32.toNat.inj (Text.hexUpper_injective hnumeral), hr⟩

/-! ## Spans -/

namespace Span

/-- A span is written as its first code point, and if it has more, a hyphen and the last one. -/
theorem labelChars_append (s : Span) (r : List Char) : s.labelChars ++ r =
    labelOfCodePoint s.lo ++ if s.lo = s.hi then r else '-' :: (labelOfCodePoint s.hi ++ r) := by
  unfold labelChars
  split <;> simp

/-- If no hyphen comes behind it, one can tell a span and where it ends. -/
theorem labelChars_append_inj {s t : Span} (hr : r.head? ≠ some '-') (hr' : r'.head? ≠ some '-')
    (h : s.labelChars ++ r = t.labelChars ++ r') : s = t ∧ r = r' := by
  obtain ⟨lo, hi⟩ := s
  obtain ⟨lo', hi'⟩ := t
  rw [labelChars_append, labelChars_append] at h
  obtain ⟨hlo, h⟩ := labelOfCodePoint_append_inj h
  dsimp only at hlo h
  subst hlo
  split at h <;> split at h
  · rename_i hs ht
    exact ⟨by rw [← hs, ← ht], h⟩
  -- a hyphen behind the first code point belongs to the span
  · exact absurd (by rw [h]; rfl) hr
  · exact absurd (by rw [← h]; rfl) hr'
  · obtain ⟨rfl, hr⟩ := labelOfCodePoint_append_inj (List.cons.inj h).2
    exact ⟨rfl, hr⟩

/-- Neither a hyphen nor a bracket that closes begins a span. -/
theorem exists_labelChars_eq_cons (s : Span) :
    ∃ c cs, s.labelChars = c :: cs ∧ c ≠ '-' ∧ c ≠ ']' := by
  obtain ⟨c, cs, hlo, hc⟩ := exists_labelOfCodePoint_eq_cons s.lo
  have hs := s.labelChars_append []
  rw [List.append_nil, hlo, List.cons_append] at hs
  exact ⟨c, _, hs, hc⟩

/-- No hyphen begins what is behind a span. -/
theorem head?_flatMap_labelChars (spans : List Span) :
    (spans.flatMap labelChars ++ [']']).head? ≠ some '-' := by
  cases spans with
  | nil => decide
  | cons s rest =>
    obtain ⟨c, cs, hs, hc, -⟩ := s.exists_labelChars_eq_cons
    rw [List.flatMap_cons, hs]
    exact fun h => hc (Option.some.inj h)

/-- Up to the bracket that closes, one can tell all spans. -/
theorem flatMap_labelChars_inj {spans spans' : List Span}
    (h : spans.flatMap labelChars ++ [']'] = spans'.flatMap labelChars ++ [']']) :
    spans = spans' := by
  induction spans generalizing spans' with
  | nil =>
    cases spans' with
    | nil => rfl
    | cons t rest' =>
      -- a label begins with no bracket, so there cannot be one span more
      obtain ⟨c, cs, ht, -, hc⟩ := t.exists_labelChars_eq_cons
      rw [List.flatMap_cons, ht] at h
      exact absurd (List.cons.inj h).1.symm hc
  | cons s rest ih =>
    cases spans' with
    | nil =>
      obtain ⟨c, cs, hs, -, hc⟩ := s.exists_labelChars_eq_cons
      rw [List.flatMap_cons, hs] at h
      exact absurd (List.cons.inj h).1 hc
    | cons t rest' =>
      rw [List.flatMap_cons, List.flatMap_cons, List.append_assoc, List.append_assoc] at h
      -- the first label ends in the same place on both sides
      obtain ⟨rfl, hrest⟩ := labelChars_append_inj (head?_flatMap_labelChars rest)
        (head?_flatMap_labelChars rest') h
      rw [ih hrest]

end Span

/-! ## Classes -/

namespace CharClass

/-- One code point is written as it is, all else in brackets. -/
theorem labelChars_cases (k : CharClass) :
    (∃ cp, k.spans = [⟨cp, cp⟩] ∧ k.labelChars = labelOfCodePoint cp) ∨
      k.labelChars = '[' :: (k.spans.flatMap Span.labelChars ++ [']']) := by
  unfold labelChars
  split
  · rename_i s hspans
    split
    · rename_i hs
      obtain ⟨lo, hi⟩ := s
      obtain rfl : lo = hi := hs
      exact Or.inl ⟨lo, hspans, rfl⟩
    · refine Or.inr ?_
      rw [hspans, List.flatMap_singleton]
  · exact Or.inr rfl

/-- No code point is written in brackets. -/
theorem labelOfCodePoint_ne_brackets (cp : UInt32) (cs : List Char) :
    labelOfCodePoint cp ≠ '[' :: (cs ++ [']']) := by
  obtain ⟨c, -, -, h⟩ | h := labelOfCodePoint_cases cp
  · rw [h]
    simp
  · rw [h]
    simp

/-- Classes with the same label are the same. -/
theorem label_injective : Function.Injective label := by
  intro k l h
  have hchars : k.labelChars = l.labelChars := String.ofList_injective h
  -- a label is that of a single code point or begins with a bracket
  have hspans : k.spans = l.spans := by
    obtain ⟨cp, hk, hk'⟩ | hk := labelChars_cases k <;>
      obtain ⟨cp', hl, hl'⟩ | hl := labelChars_cases l
    · rw [hk', hl', ← List.append_nil (labelOfCodePoint cp),
        ← List.append_nil (labelOfCodePoint cp')] at hchars
      rw [hk, hl, (labelOfCodePoint_append_inj hchars).1]
    · rw [hk', hl] at hchars
      exact absurd hchars (labelOfCodePoint_ne_brackets cp _)
    · rw [hk, hl'] at hchars
      exact absurd hchars.symm (labelOfCodePoint_ne_brackets cp' _)
    · rw [hk, hl] at hchars
      exact Span.flatMap_labelChars_inj (List.cons.inj hchars).2
  cases k
  cases l
  cases hspans
  rfl

/-- The classes of two spans are the same if the spans have the same code points. -/
theorem ofSpans_singleton_eq_iff {s t : Span} :
    ofSpans [s] = ofSpans [t] ↔ ∀ cp, s.contains cp = t.contains cp := by
  have hmem : ∀ (s : Span) cp, (ofSpans [s]).contains cp = true ↔ s.contains cp = true := by
    intro s cp
    rw [contains_ofSpans, Span.covers_cons, or_iff_left Span.not_covers_nil]
  constructor
  · intro h cp
    rw [Bool.eq_iff_iff, ← hmem s, ← hmem t, h]
  · intro h
    refine ext_of_contains fun cp => ?_
    rw [hmem, hmem, h cp]

end CharClass

/-! ## Edges -/

namespace Dfa.Edge

variable {e e' : Edge}

/-- The parts of the line of an edge. -/
theorem toList_line (e : Edge) : e.line.toList =
    [' ', ' '] ++ (CharClass.ofSpans [e.toSpan]).label.toList ++ [' ', '-', '>', ' '] ++
      'd' :: (Nat.toDigits 10 e.target ++ ['\n']) := by
  simp [line, toString, Nat.repr]

/-- The line of an edge shows the label and the target: behind the last letter `d` is the target
alone, and it has no letters. -/
theorem line_eq_iff : e.line = e'.line ↔
    (CharClass.ofSpans [e.toSpan]).label = (CharClass.ofSpans [e'.toSpan]).label ∧
      e.target = e'.target := by
  constructor
  · intro h
    have hletter : ∀ n, 'd' ∉ Nat.toDigits 10 n ++ ['\n'] := fun n hmem => by
      rcases List.mem_append.1 hmem with hdigit | hfeed
      · exact absurd (Nat.isDigit_of_mem_toDigits (by decide) (by decide) hdigit) (by decide)
      · exact absurd hfeed (by decide)
    have hchars := congrArg String.toList h
    rw [toList_line, toList_line] at hchars
    obtain ⟨hfront, hback⟩ := append_cons_inj_of_notMem_right (hletter _) (hletter _) hchars
    rw [List.append_left_inj, List.append_right_inj] at hfront
    have htarget := congrArg (Nat.ofDigitChars 10 · 0) ((List.append_left_inj _).1 hback)
    simp only [Nat.ofDigitChars_ten_toDigits] at htarget
    exact ⟨String.toList_injective hfront, htarget⟩
  · rintro ⟨hlabel, htarget⟩
    rw [line, line, hlabel, htarget]

end Dfa.Edge

/-- **Labels are unambiguous.** Classes with the same label are the same, whatever 32-bit numbers
are in them: surrogates and numbers beyond the last Unicode character too. So the label of an edge
stands for its code points, and the line of an edge in a listing for these and the target. -/
theorem labels_unambiguous :
    (∀ k l : CharClass, k.label = l.label ↔ k = l) ∧
    ∀ e e' : Dfa.Edge,
      ((CharClass.ofSpans [e.toSpan]).label = (CharClass.ofSpans [e'.toSpan]).label ↔
        ∀ cp, e.contains cp = e'.contains cp) ∧
      (e.line = e'.line ↔ (∀ cp, e.contains cp = e'.contains cp) ∧ e.target = e'.target) := by
  have hclass : ∀ k l : CharClass, k.label = l.label ↔ k = l := fun k l =>
    CharClass.label_injective.eq_iff
  refine ⟨hclass, fun e e' => ?_⟩
  have hedge := (hclass _ _).trans (CharClass.ofSpans_singleton_eq_iff (s := e.toSpan)
    (t := e'.toSpan))
  exact ⟨hedge, Dfa.Edge.line_eq_iff.trans (and_congr_left' hedge)⟩

/-- An open bracket of its own, and next to a hyphen. -/
example : (CharClass.single '[').labelChars = ['['] ∧
    CharClass.labelChars ⟨[⟨0x2D, 0x2D⟩, ⟨0x5B, 0x5B⟩], ⟨by decide, by decide⟩⟩ =
      ['[', '\\', 'u', '{', '2', 'D', '}', '[', ']'] := by
  decide

end MaximalMunch
