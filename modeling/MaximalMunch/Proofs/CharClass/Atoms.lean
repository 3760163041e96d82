import MaximalMunch.CharClass.Atoms

/-!
# What atoms decide

The cuts of some spans are the only places where membership in any of them changes. An atom runs
from one cut to the next, so a span holds all of it or none (`contains_iff_of_mem_atoms`), and every
code point of a span lies in an atom (`exists_mem_atoms`). The atoms are in increasing order
(`pairwise_atoms`).
-/

namespace MaximalMunch

namespace Span

/-- Membership in a span, as a statement on numbers. -/
theorem contains_iff {s : Span} {cp : UInt32} :
    s.contains cp = true ↔ s.lo.toNat ≤ cp.toNat ∧ cp.toNat ≤ s.hi.toNat := by
  rw [contains, Bool.and_eq_true, decide_eq_true_iff, decide_eq_true_iff,
    UInt32.le_iff_toNat_le, UInt32.le_iff_toNat_le]

/-! ## Cuts -/

/-- The cuts are the starts of the spans and the code points behind them. -/
theorem mem_cuts {spans : List Span} {n : Nat} :
    n ∈ cuts spans ↔ ∃ s ∈ spans, n = s.lo.toNat ∨ n = s.hi.toNat + 1 := by
  rw [cuts, Ascending.mem_ofList, List.mem_flatMap]
  simp

/-- Cuts increase. -/
theorem pairwise_cuts (spans : List Span) : (cuts spans).Pairwise (· < ·) :=
  Ascending.pairwise_ofList _

/-- No cut lies beyond the end of the code points. -/
theorem le_of_mem_cuts {spans : List Span} {n : Nat} (h : n ∈ cuts spans) : n ≤ UInt32.size := by
  obtain ⟨s, -, rfl | rfl⟩ := mem_cuts.1 h
  · exact Nat.le_of_lt s.lo.toNat_lt
  · exact s.hi.toNat_lt

/-! ## From one cut to the next -/

/-- A span between increasing numbers runs from one of them up to the next. -/
theorem exists_bounds_of_mem_between {ns : List Nat} (hns : ns.Pairwise (· < ·))
    (hle : ∀ n ∈ ns, n ≤ UInt32.size) {s : Span} (hs : s ∈ between ns) :
    s.lo.toNat ≤ s.hi.toNat ∧ s.lo.toNat ∈ ns ∧ s.hi.toNat + 1 ∈ ns ∧
      ∀ n ∈ ns, n ≤ s.lo.toNat ∨ s.hi.toNat < n := by
  fun_induction between ns with
  | case2 => simp at hs
  | case1 a b rest ih =>
    obtain ⟨hfirst, htail⟩ := List.pairwise_cons.1 hns
    have hab : a < b := hfirst b (by simp)
    have hb : b ≤ UInt32.size := hle b (by simp)
    rcases List.mem_cons.1 hs with rfl | hs
    · -- the span between the first two numbers; nothing is lost in 32 bits
      have hlo : (UInt32.ofNat a).toNat = a := UInt32.toNat_ofNat_of_lt' (by omega)
      have hhi : (UInt32.ofNat (b - 1)).toNat = b - 1 := UInt32.toNat_ofNat_of_lt' (by omega)
      rw [hlo, hhi]
      refine ⟨by omega, by simp, by simp [Nat.sub_add_cancel (by omega : 1 ≤ b)], ?_⟩
      intro n hn
      rcases List.mem_cons.1 hn with rfl | hn
      · exact Or.inl (Nat.le_refl n)
      · rcases List.mem_cons.1 hn with rfl | hn
        · exact Or.inr (by omega)
        · have := (List.pairwise_cons.1 htail).1 n hn
          exact Or.inr (by omega)
    · -- a later span begins behind the first number
      obtain ⟨hproper, hlo, hhi, hgap⟩ := ih htail (fun n hn => hle n (by simp [hn])) hs
      refine ⟨hproper, List.mem_cons_of_mem _ hlo, List.mem_cons_of_mem _ hhi, ?_⟩
      intro n hn
      rcases List.mem_cons.1 hn with rfl | hn
      · exact Or.inl (Nat.le_of_lt (hfirst _ hlo))
      · exact hgap n hn

/-- A number that is neither below all nor above all of some increasing numbers lies in a span
between them. -/
theorem exists_mem_between {ns : List Nat} (hns : ns.Pairwise (· < ·))
    (hle : ∀ n ∈ ns, n ≤ UInt32.size) {a b x : Nat} (ha : a ∈ ns) (hax : a ≤ x) (hb : b ∈ ns)
    (hxb : x < b) : ∃ s ∈ between ns, s.lo.toNat ≤ x ∧ x ≤ s.hi.toNat := by
  fun_induction between ns generalizing a with
  | case2 ns hns' =>
    -- fewer than two numbers leave no room for `a ≤ x < b`
    exfalso
    rcases ns with _ | ⟨c, _ | ⟨d, rest⟩⟩
    · simp at ha
    · simp only [List.mem_singleton] at ha hb
      omega
    · exact hns' c d rest rfl
  | case1 c d rest ih =>
    obtain ⟨hfirst, htail⟩ := List.pairwise_cons.1 hns
    have hcd : c < d := hfirst d (by simp)
    have hd : d ≤ UInt32.size := hle d (by simp)
    have hcx : c ≤ x := by
      rcases List.mem_cons.1 ha with rfl | ha
      · exact hax
      · exact Nat.le_trans (Nat.le_of_lt (hfirst a ha)) hax
    by_cases hxd : x < d
    · refine ⟨_, List.mem_cons_self, ?_, ?_⟩
      · rw [UInt32.toNat_ofNat_of_lt' (by omega)]
        exact hcx
      · rw [UInt32.toNat_ofNat_of_lt' (by omega)]
        omega
    · have hb' : b ∈ d :: rest := by
        rcases List.mem_cons.1 hb with rfl | hb
        · omega
        · exact hb
      obtain ⟨s, hs, hx⟩ := ih htail (fun n hn => hle n (by simp [hn])) List.mem_cons_self
        (by omega) hb'
      exact ⟨s, List.mem_cons_of_mem _ hs, hx⟩

/-- The spans between increasing numbers increase. -/
theorem pairwise_between {ns : List Nat} (hns : ns.Pairwise (· < ·))
    (hle : ∀ n ∈ ns, n ≤ UInt32.size) :
    (between ns).Pairwise fun s t => s.hi.toNat < t.lo.toNat := by
  fun_induction between ns with
  | case2 => exact .nil
  | case1 a b rest ih =>
    obtain ⟨hfirst, htail⟩ := List.pairwise_cons.1 hns
    have hle' : ∀ n ∈ b :: rest, n ≤ UInt32.size := fun n hn => hle n (by simp [hn])
    refine List.pairwise_cons.2 ⟨fun t ht => ?_, ih htail hle'⟩
    have hab : a < b := hfirst b (by simp)
    have hb : b ≤ UInt32.size := hle b (by simp)
    obtain ⟨-, hlo, -⟩ := exists_bounds_of_mem_between htail hle' ht
    -- a later span begins at one of the numbers from `b` on
    have hbt : b ≤ t.lo.toNat := by
      rcases List.mem_cons.1 hlo with h | h
      · exact Nat.le_of_eq h.symm
      · exact Nat.le_of_lt ((List.pairwise_cons.1 htail).1 _ h)
    show (UInt32.ofNat (b - 1)).toNat < t.lo.toNat
    rw [UInt32.toNat_ofNat_of_lt' (by omega)]
    omega

/-! ## Atoms -/

variable {spans : List Span} {a s : Span} {cp : UInt32}

/-- An atom is not empty. -/
theorem proper_of_mem_atoms (ha : a ∈ atoms spans) : a.lo.toNat ≤ a.hi.toNat :=
  (exists_bounds_of_mem_between (pairwise_cuts spans) (fun _ => le_of_mem_cuts) ha).1

/-- Atoms are in increasing order. -/
theorem pairwise_atoms (spans : List Span) :
    (atoms spans).Pairwise fun a b => a.hi.toNat < b.lo.toNat :=
  pairwise_between (pairwise_cuts spans) fun _ => le_of_mem_cuts

/-- A span holds all of an atom or nothing of it. -/
theorem contains_iff_of_mem_atoms (ha : a ∈ atoms spans) (hs : s ∈ spans)
    (hcp : a.contains cp = true) : s.contains cp = true ↔ s.contains a.lo = true := by
  obtain ⟨hproper, -, -, hgap⟩ :=
    exists_bounds_of_mem_between (pairwise_cuts spans) (fun _ => le_of_mem_cuts) ha
  rw [contains_iff] at hcp
  -- neither end of `s` is a cut inside the atom
  have hlo := hgap s.lo.toNat (mem_cuts.2 ⟨s, hs, Or.inl rfl⟩)
  have hhi := hgap (s.hi.toNat + 1) (mem_cuts.2 ⟨s, hs, Or.inr rfl⟩)
  rw [contains_iff, contains_iff]
  omega

/-- Every code point of a span lies in an atom. -/
theorem exists_mem_atoms (hs : s ∈ spans) (hcp : s.contains cp = true) :
    ∃ a ∈ atoms spans, a.contains cp = true := by
  rw [contains_iff] at hcp
  obtain ⟨a, ha, hbounds⟩ := exists_mem_between (pairwise_cuts spans) (fun _ => le_of_mem_cuts)
    (mem_cuts.2 ⟨s, hs, Or.inl rfl⟩) hcp.1 (mem_cuts.2 ⟨s, hs, Or.inr rfl⟩) (by omega)
  exact ⟨a, ha, contains_iff.2 hbounds⟩

end Span

/-! ## Classes -/

namespace CharClass

variable {classes : List CharClass} {k : CharClass} {a : Span} {cp : UInt32}

/-- A class has the code points of its spans. -/
theorem contains_iff : k.contains cp = true ↔ ∃ s ∈ k.spans, s.contains cp = true :=
  List.any_eq_true

/-- A class holds all of an atom or nothing of it. -/
theorem contains_iff_of_mem_partition (ha : a ∈ partition classes) (hk : k ∈ classes)
    (hcp : a.contains cp = true) : k.contains cp = true ↔ k.contains a.lo = true := by
  rw [contains_iff, contains_iff]
  have hspan : ∀ s ∈ k.spans, (s.contains cp = true ↔ s.contains a.lo = true) := fun s hs =>
    Span.contains_iff_of_mem_atoms ha (List.mem_flatMap.2 ⟨k, hk, hs⟩) hcp
  constructor
  · rintro ⟨s, hs, h⟩
    exact ⟨s, hs, (hspan s hs).1 h⟩
  · rintro ⟨s, hs, h⟩
    exact ⟨s, hs, (hspan s hs).2 h⟩

/-- Every member of a class lies in an atom. -/
theorem exists_mem_partition (hk : k ∈ classes) (hcp : k.contains cp = true) :
    ∃ a ∈ partition classes, a.contains cp = true := by
  obtain ⟨s, hs, h⟩ := contains_iff.1 hcp
  exact Span.exists_mem_atoms (List.mem_flatMap.2 ⟨k, hk, hs⟩) h

end CharClass

end MaximalMunch
