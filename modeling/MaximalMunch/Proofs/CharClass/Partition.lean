import Mathlib.Data.List.Chain
import Mathlib.Order.Bounds.Basic
import Mathlib.Order.WellFounded
import MaximalMunch.Proofs.CharClass.Sets

/-!
# Coarsest atoms

The atoms of some classes are laid end to end, from the least member of any of them to the greatest
(`covers_partition`), and each lies inside or outside of each class. As the spans of a class are not
empty and have gaps between them, some class changes at every cut (`exists_contains_ne`). So no cut
could be left out: whatever lies inside or outside of each class lies in one atom
(`atomsOf_partition`).
-/

namespace MaximalMunch

/-- Sets of 32-bit numbers have a least member unless they are empty. -/
theorem exists_isLeast {P : Set UInt32} (h : P.Nonempty) : ∃ lo, IsLeast P lo := by
  obtain ⟨lo, hlo, hmin⟩ := (measure UInt32.toNat).wf.has_min P h
  refine ⟨lo, hlo, fun x hx => UInt32.le_iff_toNat_le.2 ?_⟩
  exact Nat.le_of_not_lt (hmin x hx)

/-- Sets of 32-bit numbers have a greatest member unless they are empty. -/
theorem exists_isGreatest {P : Set UInt32} (h : P.Nonempty) : ∃ hi, IsGreatest P hi := by
  obtain ⟨hi, hhi, hmin⟩ := (measure fun x : UInt32 => UInt32.size - x.toNat).wf.has_min P h
  refine ⟨hi, hhi, fun x hx => UInt32.le_iff_toNat_le.2 ?_⟩
  have hnot : ¬ UInt32.size - x.toNat < UInt32.size - hi.toNat := hmin x hx
  have hlt : hi.toNat < UInt32.size := hi.toNat_lt
  omega

namespace Span

variable {spans : List Span} {s t : Span} {cp : UInt32}

/-! ## From one cut to the next -/

section Between

variable {ns : List Nat} (hns : ns.Pairwise (· < ·)) (hle : ∀ n ∈ ns, n ≤ UInt32.size)
include hns hle

/-- The spans between increasing numbers begin and end at these numbers, though their ends have
32 bits. -/
theorem map_between :
    (between ns).map (fun s => (s.lo.toNat, s.hi.toNat + 1)) = ns.zip ns.tail := by
  fun_induction between ns with
  | case1 a b rest ih =>
    obtain ⟨hfirst, htail⟩ := List.pairwise_cons.1 hns
    have hab : a < b := hfirst b (by simp)
    have hb : b ≤ UInt32.size := hle b (by simp)
    have hlo : (UInt32.ofNat a).toNat = a := UInt32.toNat_ofNat_of_lt' (by omega)
    have hhi : (UInt32.ofNat (b - 1)).toNat = b - 1 := UInt32.toNat_ofNat_of_lt' (by omega)
    rw [List.map_cons, ih htail fun n hn => hle n (List.mem_cons_of_mem a hn), hlo, hhi,
      Nat.sub_add_cancel (by omega : 1 ≤ b)]
    rfl
  | case2 ns hns' =>
    -- fewer than two numbers have nothing between them
    rcases ns with _ | ⟨a, _ | ⟨b, rest⟩⟩
    · rfl
    · rfl
    · exact absurd rfl (hns' a b rest)

/-- Each of the spans between increasing numbers begins right behind the one before it. -/
theorem isChain_between :
    (between ns).IsChain fun s t => s.hi.toNat + 1 = t.lo.toNat := by
  have hzip : ∀ l : List Nat, (l.zip l.tail).IsChain fun p q => p.2 = q.1 := by
    intro l
    induction l with
    | nil => exact .nil
    | cons a l ih =>
      rcases l with _ | ⟨b, _ | ⟨c, rest⟩⟩
      · exact .nil
      · exact .singleton _
      · exact .cons_cons rfl ih
  have h := hzip ns
  rw [← map_between hns hle, List.isChain_map] at h
  exact h

/-- The spans between increasing numbers cover what is neither below all of them nor above. -/
theorem covers_between :
    Covers (between ns) cp ↔ (∃ a ∈ ns, a ≤ cp.toNat) ∧ ∃ b ∈ ns, cp.toNat < b := by
  constructor
  · rintro ⟨s, hs, hin⟩
    obtain ⟨-, hlo, hhi, -⟩ := exists_bounds_of_mem_between hns hle hs
    rw [contains_iff] at hin
    exact ⟨⟨_, hlo, hin.1⟩, _, hhi, Nat.lt_succ_of_le hin.2⟩
  · rintro ⟨⟨a, ha, hle_cp⟩, b, hb, hlt⟩
    obtain ⟨s, hs, hin⟩ := exists_mem_between hns hle ha hle_cp hb hlt
    exact ⟨s, hs, contains_iff.2 hin⟩

end Between

/-- The atoms of spans that are not empty cover what is neither below all spans nor above. -/
theorem covers_atoms (h : ∀ s ∈ spans, s.lo ≤ s.hi) :
    Covers (atoms spans) cp ↔ (∃ s ∈ spans, s.lo ≤ cp) ∧ ∃ s ∈ spans, cp ≤ s.hi := by
  rw [atoms, covers_between (pairwise_cuts spans) fun _ => le_of_mem_cuts]
  refine and_congr ⟨?_, ?_⟩ ⟨?_, ?_⟩
  · rintro ⟨n, hn, hle⟩
    obtain ⟨s, hs, hn⟩ := mem_cuts.1 hn
    have hproper := UInt32.le_iff_toNat_le.1 (h s hs)
    exact ⟨s, hs, UInt32.le_iff_toNat_le.2 (by omega)⟩
  · rintro ⟨s, hs, hle⟩
    exact ⟨_, mem_cuts.2 ⟨s, hs, Or.inl rfl⟩, UInt32.le_iff_toNat_le.1 hle⟩
  · rintro ⟨n, hn, hlt⟩
    obtain ⟨s, hs, hn⟩ := mem_cuts.1 hn
    have hproper := UInt32.le_iff_toNat_le.1 (h s hs)
    exact ⟨s, hs, UInt32.le_iff_toNat_le.2 (by omega)⟩
  · rintro ⟨s, hs, hle⟩
    exact ⟨_, mem_cuts.2 ⟨s, hs, Or.inr rfl⟩, Nat.lt_succ_of_le (UInt32.le_iff_toNat_le.1 hle)⟩

/-! ## Both sides of the ends of a span -/

/-- Of two spans that are separated the one ends and leaves a gap before the other begins. -/
theorem Separated.eq_or_apart (h : Separated spans) (hs : s ∈ spans) (ht : t ∈ spans) :
    s = t ∨ s.hi.toNat + 1 < t.lo.toNat ∨ t.hi.toNat + 1 < s.lo.toNat := by
  have hpairs : spans.Pairwise fun s t : Span =>
      s.hi.toNat + 1 < t.lo.toNat ∨ t.hi.toNat + 1 < s.lo.toNat := h.apart.imp Or.inl
  have : Std.Symm fun s t : Span =>
      s.hi.toNat + 1 < t.lo.toNat ∨ t.hi.toNat + 1 < s.lo.toNat := ⟨fun _ _ => Or.symm⟩
  by_cases heq : s = t
  · exact Or.inl heq
  · exact Or.inr (hpairs.forall hs ht heq)

/-- Separated spans leave out the code point right before one of them. -/
theorem Separated.not_covers_before (h : Separated spans) (hs : s ∈ spans)
    (hcp : cp.toNat + 1 = s.lo.toNat) : ¬ Covers spans cp := by
  rintro ⟨t, ht, hin⟩
  have hproper := UInt32.le_iff_toNat_le.1 (h.proper s hs)
  rw [contains_iff] at hin
  obtain rfl | hlt | hlt := h.eq_or_apart hs ht <;> omega

/-- Separated spans leave out the code point right behind one of them. -/
theorem Separated.not_covers_behind (h : Separated spans) (hs : s ∈ spans)
    (hcp : s.hi.toNat + 1 = cp.toNat) : ¬ Covers spans cp := by
  rintro ⟨t, ht, hin⟩
  have hproper := UInt32.le_iff_toNat_le.1 (h.proper s hs)
  rw [contains_iff] at hin
  obtain rfl | hlt | hlt := h.eq_or_apart hs ht <;> omega

end Span

namespace CharClass

variable {classes : List CharClass} {a b : Span} {x y cp : UInt32}

/-- The members of any of some classes. -/
def members (classes : List CharClass) : Set UInt32 :=
  {cp | ∃ k ∈ classes, k.contains cp = true}

/-- Spans that cut the code points from the least member of some classes to the greatest as these
classes do, and no further. -/
structure AtomsOf (classes : List CharClass) (atoms : List Span) : Prop where
  /-- No atom is empty. -/
  proper : ∀ a ∈ atoms, a.lo ≤ a.hi
  /-- An atom ends before those behind it begin. -/
  ordered : atoms.Pairwise fun a b => a.hi < b.lo
  /-- An atom begins right behind the one before it. -/
  contiguous : atoms.IsChain fun a b => a.hi.toNat + 1 = b.lo.toNat
  /-- Together the atoms cover what lies between the least member and the greatest. -/
  covers_iff : ∀ cp, Span.Covers atoms cp ↔
    ∃ lo hi, IsLeast (members classes) lo ∧ IsGreatest (members classes) hi ∧ lo ≤ cp ∧ cp ≤ hi
  /-- There are none if and only if the classes have no members. -/
  eq_nil_iff : atoms = [] ↔ ∀ k ∈ classes, k.isEmpty = true
  /-- A class holds all of an atom or nothing of it. -/
  whole : ∀ a ∈ atoms, ∀ k ∈ classes, (∀ cp, a.contains cp = true → k.contains cp = true) ∨
    ∀ cp, a.contains cp = true → k.contains cp = false
  /-- Of two atoms that touch some class holds the one and not the other. -/
  told_apart : atoms.IsChain fun a b => ∃ k ∈ classes, ∀ x y,
    a.contains x = true → b.contains y = true → k.contains x ≠ k.contains y
  /-- Any span that begins at a covered code point and of which each class holds all or nothing lies
  in one atom. -/
  coarsest : ∀ s : Span, Span.Covers atoms s.lo →
    (∀ k ∈ classes, ∀ x y, s.contains x = true → s.contains y = true →
      k.contains x = k.contains y) → ∃ a ∈ atoms, a.lo ≤ s.lo ∧ s.hi ≤ a.hi

/-! ## What atoms cover -/

/-- The spans of classes are not empty. -/
theorem proper_of_mem_flatMap {s : Span} (hs : s ∈ classes.flatMap (·.spans)) : s.lo ≤ s.hi := by
  obtain ⟨k, -, hs⟩ := List.mem_flatMap.1 hs
  exact k.separated.proper s hs

/-- The ends of the spans of classes are members. -/
theorem ends_mem_members {s : Span} (hs : s ∈ classes.flatMap (·.spans)) :
    s.lo ∈ members classes ∧ s.hi ∈ members classes := by
  have hproper := UInt32.le_iff_toNat_le.1 (proper_of_mem_flatMap hs)
  obtain ⟨k, hk, hs⟩ := List.mem_flatMap.1 hs
  have hlo := Span.contains_iff.2 ⟨Nat.le_refl _, hproper⟩
  have hhi := Span.contains_iff.2 ⟨hproper, Nat.le_refl _⟩
  exact ⟨⟨k, hk, contains_iff.2 ⟨s, hs, hlo⟩⟩, k, hk, contains_iff.2 ⟨s, hs, hhi⟩⟩

/-- A member lies in a span of the classes. -/
theorem exists_span_of_mem_members (h : cp ∈ members classes) :
    ∃ s ∈ classes.flatMap (·.spans), s.lo ≤ cp ∧ cp ≤ s.hi := by
  obtain ⟨k, hk, hcp⟩ := h
  obtain ⟨s, hs, hin⟩ := contains_iff.1 hcp
  rw [Span.contains_iff] at hin
  exact ⟨s, List.mem_flatMap.2 ⟨k, hk, hs⟩, UInt32.le_iff_toNat_le.2 hin.1,
    UInt32.le_iff_toNat_le.2 hin.2⟩

/-- Atoms cover what is neither below all members nor above. -/
theorem covers_partition : Span.Covers (partition classes) cp ↔
    (∃ lo ∈ members classes, lo ≤ cp) ∧ ∃ hi ∈ members classes, cp ≤ hi := by
  rw [partition, Span.covers_atoms fun s => proper_of_mem_flatMap]
  refine and_congr ⟨?_, ?_⟩ ⟨?_, ?_⟩
  · rintro ⟨s, hs, hle⟩
    exact ⟨s.lo, (ends_mem_members hs).1, hle⟩
  · rintro ⟨lo, hlo, hle⟩
    obtain ⟨s, hs, hslo, -⟩ := exists_span_of_mem_members hlo
    exact ⟨s, hs, UInt32.le_trans hslo hle⟩
  · rintro ⟨s, hs, hle⟩
    exact ⟨s.hi, (ends_mem_members hs).2, hle⟩
  · rintro ⟨hi, hhi, hle⟩
    obtain ⟨s, hs, -, hshi⟩ := exists_span_of_mem_members hhi
    exact ⟨s, hs, UInt32.le_trans hle hshi⟩

/-- Atoms cover what lies between the least member and the greatest. -/
theorem covers_partition_iff : Span.Covers (partition classes) cp ↔ ∃ lo hi,
    IsLeast (members classes) lo ∧ IsGreatest (members classes) hi ∧ lo ≤ cp ∧ cp ≤ hi := by
  rw [covers_partition]
  constructor
  · rintro ⟨⟨x, hx, hxcp⟩, y, hy, hcpy⟩
    obtain ⟨lo, hlo⟩ := exists_isLeast ⟨x, hx⟩
    obtain ⟨hi, hhi⟩ := exists_isGreatest ⟨x, hx⟩
    exact ⟨lo, hi, hlo, hhi, UInt32.le_trans (hlo.2 hx) hxcp, UInt32.le_trans hcpy (hhi.2 hy)⟩
  · rintro ⟨lo, hi, hlo, hhi, hle, hge⟩
    exact ⟨⟨lo, hlo.1, hle⟩, hi, hhi.1, hge⟩

/-- There are no atoms if and only if the classes have no members. -/
theorem partition_eq_nil_iff : partition classes = [] ↔ ∀ k ∈ classes, k.isEmpty = true := by
  constructor
  · intro hnil k hk
    refine isEmpty_iff.2 fun cp hcp => ?_
    obtain ⟨a, ha, -⟩ := exists_mem_partition hk hcp
    rw [hnil] at ha
    exact List.not_mem_nil ha
  · intro hempty
    refine List.eq_nil_iff_forall_not_mem.2 fun a ha => ?_
    have hcovers : Span.Covers (partition classes) a.lo :=
      ⟨a, ha, Span.contains_iff.2 ⟨Nat.le_refl _, Span.proper_of_mem_atoms ha⟩⟩
    obtain ⟨⟨lo, ⟨k, hk, hlo⟩, -⟩, -⟩ := covers_partition.1 hcovers
    exact isEmpty_iff.1 (hempty k hk) lo hlo

/-! ## What tells atoms apart -/

/-- At each cut some class changes: it begins there, or it ends right before. -/
theorem exists_contains_ne (hcut : y.toNat ∈ Span.cuts (classes.flatMap (·.spans)))
    (hxy : x.toNat + 1 = y.toNat) : ∃ k ∈ classes, k.contains x ≠ k.contains y := by
  obtain ⟨s, hs, hend⟩ := Span.mem_cuts.1 hcut
  have hproper := UInt32.le_iff_toNat_le.1 (proper_of_mem_flatMap hs)
  obtain ⟨k, hk, hs⟩ := List.mem_flatMap.1 hs
  refine ⟨k, hk, fun heq => ?_⟩
  rcases hend with hlo | hhi
  · have hy : k.contains y = true :=
      contains_iff.2 ⟨s, hs, Span.contains_iff.2 ⟨by omega, by omega⟩⟩
    rw [← heq] at hy
    exact k.separated.not_covers_before hs (hxy.trans hlo) (contains_iff_covers.1 hy)
  · have hx : k.contains x = true :=
      contains_iff.2 ⟨s, hs, Span.contains_iff.2 ⟨by omega, by omega⟩⟩
    rw [heq] at hx
    exact k.separated.not_covers_behind hs hhi.symm (contains_iff_covers.1 hx)

/-- All code points of an atom are in the same classes. -/
theorem contains_eq_of_mem_partition {k : CharClass} (ha : a ∈ partition classes)
    (hk : k ∈ classes) (hx : a.contains x = true) (hy : a.contains y = true) :
    k.contains x = k.contains y := by
  rw [Bool.eq_iff_iff, contains_iff_of_mem_partition ha hk hx,
    contains_iff_of_mem_partition ha hk hy]

/-- The ends of an atom are in it. -/
theorem ends_of_mem_partition (ha : a ∈ partition classes) :
    a.contains a.lo = true ∧ a.contains a.hi = true := by
  have hproper := Span.proper_of_mem_atoms ha
  exact ⟨Span.contains_iff.2 ⟨Nat.le_refl _, hproper⟩, Span.contains_iff.2 ⟨hproper, Nat.le_refl _⟩⟩

/-- A class holds all of an atom or nothing of it. -/
theorem all_or_none_of_mem_partition {k : CharClass} (ha : a ∈ partition classes)
    (hk : k ∈ classes) : (∀ cp, a.contains cp = true → k.contains cp = true) ∨
      ∀ cp, a.contains cp = true → k.contains cp = false := by
  have hsame : ∀ cp, a.contains cp = true → k.contains cp = k.contains a.lo := fun cp hcp =>
    contains_eq_of_mem_partition ha hk hcp (ends_of_mem_partition ha).1
  cases hlo : k.contains a.lo with
  | true => exact Or.inl fun cp hcp => (hsame cp hcp).trans hlo
  | false => exact Or.inr fun cp hcp => (hsame cp hcp).trans hlo

/-- Atoms begin at cuts, and the code points behind them are cuts. -/
theorem ends_mem_cuts (ha : a ∈ partition classes) :
    a.lo.toNat ∈ Span.cuts (classes.flatMap (·.spans)) ∧
      a.hi.toNat + 1 ∈ Span.cuts (classes.flatMap (·.spans)) := by
  obtain ⟨-, hlo, hhi, -⟩ := Span.exists_bounds_of_mem_between (Span.pairwise_cuts _)
    (fun _ => Span.le_of_mem_cuts) ha
  exact ⟨hlo, hhi⟩

/-- Some class holds one of two atoms that touch and not the other. -/
theorem exists_class_of_touch (ha : a ∈ partition classes) (hb : b ∈ partition classes)
    (htouch : a.hi.toNat + 1 = b.lo.toNat) : ∃ k ∈ classes, ∀ x y,
      a.contains x = true → b.contains y = true → k.contains x ≠ k.contains y := by
  obtain ⟨k, hk, hne⟩ := exists_contains_ne (ends_mem_cuts hb).1 htouch
  refine ⟨k, hk, fun x y hx hy => ?_⟩
  rwa [contains_eq_of_mem_partition ha hk hx (ends_of_mem_partition ha).2,
    contains_eq_of_mem_partition hb hk hy (ends_of_mem_partition hb).1]

/-- A span of which each class holds all or nothing goes over no cut. -/
theorem exists_mem_partition_of_uniform {s : Span} (hlo : Span.Covers (partition classes) s.lo)
    (huniform : ∀ k ∈ classes, ∀ x y, s.contains x = true → s.contains y = true →
      k.contains x = k.contains y) : ∃ a ∈ partition classes, a.lo ≤ s.lo ∧ s.hi ≤ a.hi := by
  obtain ⟨a, ha, hin⟩ := hlo
  rw [Span.contains_iff] at hin
  refine ⟨a, ha, UInt32.le_iff_toNat_le.2 hin.1, UInt32.le_iff_toNat_le.2 ?_⟩
  apply Nat.le_of_not_lt
  intro hlt
  -- otherwise the span goes on behind the atom, where some class changes
  have hbound : s.hi.toNat < UInt32.size := s.hi.toNat_lt
  have hnext : (UInt32.ofNat (a.hi.toNat + 1)).toNat = a.hi.toNat + 1 :=
    UInt32.toNat_ofNat_of_lt' (by omega)
  have hcut := (ends_mem_cuts ha).2
  rw [← hnext] at hcut
  obtain ⟨k, hk, hne⟩ := exists_contains_ne hcut hnext.symm
  exact hne (huniform k hk _ _ (Span.contains_iff.2 ⟨hin.2, by omega⟩)
    (Span.contains_iff.2 ⟨by omega, by omega⟩))

/-- **The atoms of classes are the coarsest.** They are laid end to end from the least member of any
class to the greatest; a class holds all of an atom or nothing of it; and some class tells apart any
two atoms that touch, so no cutting with larger spans keeps the classes whole. The bounds of atoms
are the cuts, from each up to the next, with nothing lost when they are written with 32 bits: a cut
lies at most right behind the last 32-bit number. -/
theorem atomsOf_partition (classes : List CharClass) :
    AtomsOf classes (partition classes) ∧
      let cuts := Span.cuts (classes.flatMap (·.spans))
      (∀ n ∈ cuts, n ≤ UInt32.size) ∧
        (partition classes).map (fun a => (a.lo.toNat, a.hi.toNat + 1)) = cuts.zip cuts.tail := by
  have hcuts := Span.pairwise_cuts (classes.flatMap (·.spans))
  have hle : ∀ n ∈ Span.cuts (classes.flatMap (·.spans)), n ≤ UInt32.size :=
    fun n => Span.le_of_mem_cuts
  have hchain : (partition classes).IsChain fun a b => a.hi.toNat + 1 = b.lo.toNat :=
    Span.isChain_between hcuts hle
  refine ⟨?_, hle, Span.map_between hcuts hle⟩
  exact
    { proper := fun a ha => UInt32.le_iff_toNat_le.2 (Span.proper_of_mem_atoms ha)
      ordered := (Span.pairwise_atoms _).imp UInt32.lt_iff_toNat_lt.2
      contiguous := hchain
      covers_iff := fun cp => covers_partition_iff
      eq_nil_iff := partition_eq_nil_iff
      whole := fun a ha k hk => all_or_none_of_mem_partition ha hk
      told_apart := hchain.imp_of_mem_imp fun a b ha hb => exists_class_of_touch ha hb
      coarsest := fun s hlo huniform => exists_mem_partition_of_uniform hlo huniform }

/-- A gap between the classes is an atom too, and the last code point is in one. -/
example : partition [ofSpans [⟨0x61, 0x7A⟩], ofSpans [⟨0x69, 0x69⟩, ⟨0xFFFFFFF0, 0xFFFFFFFF⟩]] =
    [⟨0x61, 0x68⟩, ⟨0x69, 0x69⟩, ⟨0x6A, 0x7A⟩, ⟨0x7B, 0xFFFFFFEF⟩, ⟨0xFFFFFFF0, 0xFFFFFFFF⟩] := by
  cbv

end CharClass

end MaximalMunch
