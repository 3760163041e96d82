import Mathlib.Data.List.Basic
import Mathlib.Data.List.TakeWhile
import MaximalMunch.Proofs.CharClass.Atoms
import MaximalMunch.Text.Blank
import MaximalMunch.Text.Word

/-!
# White space around a text

Every text is a part without white space at its ends, between white space (`Trims`), and there is
one such part: the one that `trim` finds (`trim_eq_iff`). It is empty if the text is white space
only (`trims_nil_iff`).
-/

namespace MaximalMunch.Text

/-- White space and nothing else. -/
def AllBlank (cs : List Char) : Prop := ∀ c ∈ cs, isBlank c = true

/-- No white space at either end. -/
structure Trimmed (cs : List Char) : Prop where
  head : ∀ c ∈ cs.head?, isBlank c = false
  last : ∀ c ∈ cs.getLast?, isBlank c = false

/-- The text is `core` between white space, and `core` has none at its ends. -/
def Trims (cs core : List Char) : Prop :=
  Trimmed core ∧ ∃ before after, AllBlank before ∧ AllBlank after ∧ cs = before ++ core ++ after

variable {cs ds w core : List Char} {c : Char}

/-! ## White space -/

theorem AllBlank.nil : AllBlank [] := fun _ hc => absurd hc List.not_mem_nil

/-- White space behind white space is white space. -/
theorem AllBlank.append (hcs : AllBlank cs) (hds : AllBlank ds) : AllBlank (cs ++ ds) := by
  intro c hc
  rcases List.mem_append.1 hc with hc | hc
  · exact hcs c hc
  · exact hds c hc

/-- White space backwards is white space. -/
theorem AllBlank.reverse (h : AllBlank cs) : AllBlank cs.reverse := fun c hc =>
  h c (List.mem_reverse.1 hc)

/-- A text that begins where one part begins and ends where another ends. -/
theorem Trimmed.append (hcs : ∀ c ∈ cs.head?, isBlank c = false) (hne : cs ≠ [])
    (hds : Trimmed ds) (hne' : ds ≠ []) : Trimmed (cs ++ ds) where
  head := by rwa [List.head?_append_of_ne_nil cs hne]
  last := by
    rw [List.getLast?_append_of_ne_nil cs hne']
    exact hds.last

/-- Word characters are capital letters, small letters, digits and the underscore. -/
theorem cases_of_isWordChar (h : isWordChar c = true) :
    ('A' ≤ c ∧ c ≤ 'Z') ∨ ('a' ≤ c ∧ c ≤ 'z') ∨ ('0' ≤ c ∧ c ≤ '9') ∨ c = '_' := by
  rcases Bool.or_eq_true_iff.1 h with h | h
  · rcases Bool.or_eq_true_iff.1 h with h | h
    · rcases Bool.or_eq_true_iff.1 h with h | h
      · exact .inl (of_decide_eq_true h)
      · obtain ⟨hlow, hhigh⟩ := Bool.and_eq_true_iff.1 h
        exact .inr (.inl ⟨of_decide_eq_true hlow, of_decide_eq_true hhigh⟩)
    · obtain ⟨hlow, hhigh⟩ := Bool.and_eq_true_iff.1 h
      exact .inr (.inr (.inl ⟨of_decide_eq_true hlow, of_decide_eq_true hhigh⟩))
  · exact .inr (.inr (.inr (of_decide_eq_true h)))

/-- All of them lie between `0` and `z`. -/
theorem bounds_of_isWordChar (h : isWordChar c = true) : '0' ≤ c ∧ c ≤ 'z' := by
  rcases cases_of_isWordChar h with ⟨hlow, hhigh⟩ | ⟨hlow, hhigh⟩ | ⟨hlow, hhigh⟩ | rfl
  · exact ⟨Char.le_trans (by decide) hlow, Char.le_trans hhigh (by decide)⟩
  · exact ⟨Char.le_trans (by decide) hlow, hhigh⟩
  · exact ⟨hlow, Char.le_trans hhigh (by decide)⟩
  · decide

/-- Word characters are no white space. -/
theorem isBlank_of_isWordChar (h : isWordChar c = true) : isBlank c = false := by
  obtain ⟨hlow, hhigh⟩ := bounds_of_isWordChar h
  have houtside : ∀ s ∈ blankSpans, s.hi < '0'.val ∨ 'z'.val < s.lo := by decide
  rw [isBlank, List.any_eq_false]
  intro s hs hcontains
  rw [Span.contains_iff] at hcontains
  rcases houtside s hs with hs | hs
  · have := UInt32.lt_iff_toNat_lt.1 hs
    have := UInt32.le_iff_toNat_le.1 hlow
    omega
  · have := UInt32.lt_iff_toNat_lt.1 hs
    have := UInt32.le_iff_toNat_le.1 hhigh
    omega

/-! ## The start of a text -/

/-- White space in front is taken away. -/
theorem trimStart_append (hw : AllBlank w) (cs : List Char) : trimStart (w ++ cs) = trimStart cs :=
  List.dropWhile_append_of_pos hw

/-- Nothing is taken away in front of a character that is not blank. -/
theorem trimStart_eq_self (h : ∀ c ∈ cs.head?, isBlank c = false) : trimStart cs = cs := by
  cases cs with
  | nil => rfl
  | cons c cs => exact List.dropWhile_cons_of_neg (Bool.eq_false_iff.1 (h c rfl))

/-- White space is taken off the start, and none is left there. -/
theorem exists_eq_append_trimStart (cs : List Char) : ∃ w, AllBlank w ∧ cs = w ++ trimStart cs ∧
    ∀ c ∈ (trimStart cs).head?, isBlank c = false := by
  refine ⟨cs.takeWhile isBlank, fun c hc => List.mem_takeWhile_imp hc,
    List.takeWhile_append_dropWhile.symm, fun c hc => ?_⟩
  have hnot := List.head?_dropWhile_not isBlank cs
  rw [trimStart, Option.mem_def] at hc
  rw [hc] at hnot
  exact hnot

/-! ## The end of a text -/

/-- White space at the end is taken away. -/
theorem trimEnd_append (hw : AllBlank w) (cs : List Char) : trimEnd (cs ++ w) = trimEnd cs := by
  rw [trimEnd, List.reverse_append]
  exact congrArg List.reverse (trimStart_append hw.reverse cs.reverse)

/-- Nothing is taken away behind a character that is not blank. -/
theorem trimEnd_eq_self (h : ∀ c ∈ cs.getLast?, isBlank c = false) : trimEnd cs = cs := by
  have hreverse : trimStart cs.reverse = cs.reverse :=
    trimStart_eq_self (by rwa [List.head?_reverse])
  show (trimStart cs.reverse).reverse = cs
  rw [hreverse, List.reverse_reverse]

/-- White space is taken off the end, and none is left there. -/
theorem exists_eq_trimEnd_append (cs : List Char) : ∃ w, AllBlank w ∧ cs = trimEnd cs ++ w ∧
    ∀ c ∈ (trimEnd cs).getLast?, isBlank c = false := by
  obtain ⟨w, hw, hcs, hhead⟩ := exists_eq_append_trimStart cs.reverse
  refine ⟨w.reverse, hw.reverse, ?_, ?_⟩
  · have h := congrArg List.reverse hcs
    rwa [List.reverse_reverse, List.reverse_append] at h
  · show ∀ c ∈ (trimStart cs.reverse).reverse.getLast?, isBlank c = false
    rwa [List.getLast?_reverse]

/-! ## Both ends -/

/-- What `trim` leaves has no white space at its ends and is the text but for white space around. -/
theorem trims_trim (cs : List Char) : Trims cs (trim cs) := by
  obtain ⟨before, hbefore, hcs, hhead⟩ := exists_eq_append_trimStart cs
  obtain ⟨after, hafter, hds, hlast⟩ := exists_eq_trimEnd_append (trimStart cs)
  refine ⟨⟨fun c hc => hhead c ?_, hlast⟩, before, after, hbefore, hafter, ?_⟩
  · -- what begins the part begins the text without the white space before it
    rw [hds, Option.mem_def, List.head?_append,
      show (trimEnd (trimStart cs)).head? = some c from hc]
    rfl
  · rw [List.append_assoc]
    show cs = before ++ (trimEnd (trimStart cs) ++ after)
    rw [← hds, ← hcs]

/-- Trimming leaves the core. -/
theorem Trims.trim_eq (h : Trims cs core) : trim cs = core := by
  obtain ⟨hcore, before, after, hbefore, hafter, rfl⟩ := h
  rw [trim, List.append_assoc, trimStart_append hbefore]
  cases core with
  | nil =>
    -- all white space goes with the start of the text
    have hnil : trimStart (after ++ []) = [] := trimStart_append hafter []
    rw [List.append_nil] at hnil
    rw [List.nil_append, hnil]
    rfl
  | cons c cs =>
    have hstart : trimStart (c :: cs ++ after) = c :: cs ++ after :=
      trimStart_eq_self fun d hd => hcore.head d hd
    rw [hstart, trimEnd_append hafter]
    exact trimEnd_eq_self hcore.last

/-- One part of a text has white space around it and none at its ends. -/
theorem trim_eq_iff : trim cs = core ↔ Trims cs core := by
  constructor
  · rintro rfl
    exact trims_trim cs
  · exact Trims.trim_eq

/-- Nothing is left of a text of white space. -/
theorem trims_nil_iff : Trims cs [] ↔ AllBlank cs := by
  constructor
  · rintro ⟨-, before, after, hbefore, hafter, rfl⟩
    rw [List.append_nil]
    exact hbefore.append hafter
  · intro h
    exact ⟨⟨by simp, by simp⟩, cs, [], h, .nil, by simp⟩

end MaximalMunch.Text
