import Mathlib.Order.Bounds.Basic
import MaximalMunch.Text.Offsets

/-!
# Boundaries and slices

Which byte offsets of a text are boundaries (`Boundary`), and what stands between two of them
(`Slice`). Characters have at least one byte, so of two beginnings of one text the longer one has
more bytes (`length_lt_iff_byteLength_lt`), and offsets tell boundaries apart: the text from a
boundary on is what `dropBytes?` gives (`dropBytes?_eq_some_iff`), and it fails at any other offset.

`floorBoundary` and `ceilBoundary` find the boundaries next to an offset, which need not be one
itself and may lie behind the text (`isGreatest_floorBoundary`, `isLeast_ceilBoundary`).
-/

namespace MaximalMunch.Text

/-- The offset lies between two characters or at an end of the text. -/
def Boundary (cs : List Char) (n : Nat) : Prop :=
  ∃ before after, cs = before ++ after ∧ byteLength before = n

/-- The text from the boundary `start` to the boundary `stop` is `piece`. -/
def Slice (cs : List Char) (start stop : Nat) (piece : List Char) : Prop :=
  ∃ before after, cs = before ++ piece ++ after ∧ byteLength before = start ∧
    byteLength (before ++ piece) = stop

variable {cs before after rest u v : List Char} {n m : Nat}

/-! ## Beginnings of a text -/

/-- Only the empty text has no bytes. -/
theorem byteLength_eq_zero_iff : byteLength cs = 0 ↔ cs = [] := by
  cases cs with
  | nil => simp
  | cons c cs =>
    have hpos := c.utf8Size_pos
    rw [byteLength_cons]
    constructor
    · intro h
      omega
    · intro h
      exact absurd h (by simp)

/-- Of two beginnings of one text the longer one has more bytes. -/
theorem length_lt_iff_byteLength_lt (hu : u <+: cs) (hv : v <+: cs) :
    u.length < v.length ↔ byteLength u < byteLength v := by
  rcases List.prefix_or_prefix_of_prefix hu hv with ⟨w, rfl⟩ | ⟨w, rfl⟩
  · have hw : byteLength w = 0 ↔ w.length = 0 :=
      byteLength_eq_zero_iff.trans List.length_eq_zero_iff.symm
    rw [List.length_append, byteLength_append]
    omega
  · rw [List.length_append, byteLength_append]
    omega

/-- Beginnings of one text with as many bytes are the same. -/
theorem eq_of_byteLength_eq (hu : u <+: cs) (hv : v <+: cs) (h : byteLength u = byteLength v) :
    u = v := by
  have huv := length_lt_iff_byteLength_lt hu hv
  have hvu := length_lt_iff_byteLength_lt hv hu
  apply (List.prefix_of_prefix_length_le hu hv (by omega)).eq_of_length
  omega

/-! ## The text from a boundary on -/

/-- The text from a boundary on is what follows the characters before it. -/
theorem dropBytes?_eq_some_iff :
    dropBytes? n cs = some rest ↔ ∃ before, cs = before ++ rest ∧ byteLength before = n := by
  fun_induction dropBytes? n cs with
  | case1 =>
    constructor
    · intro h
      obtain rfl := Option.some.inj h
      exact ⟨[], rfl, rfl⟩
    · rintro ⟨before, happend, -⟩
      rw [(List.append_eq_nil_iff.1 happend.symm).2]
  | case2 n hn =>
    constructor
    · intro h
      exact absurd h (by simp)
    · rintro ⟨before, happend, hlength⟩
      rw [(List.append_eq_nil_iff.1 happend.symm).1] at hlength
      exact absurd hlength.symm hn
  | case3 c cs =>
    constructor
    · intro h
      obtain rfl := Option.some.inj h
      exact ⟨[], rfl, rfl⟩
    · rintro ⟨before, happend, hlength⟩
      rw [byteLength_eq_zero_iff.1 hlength] at happend
      rw [happend, List.nil_append]
  | case4 n c cs hn hfits ih =>
    rw [ih]
    constructor
    · rintro ⟨before, rfl, hlength⟩
      refine ⟨c :: before, rfl, ?_⟩
      rw [byteLength_cons, hlength, Nat.add_sub_cancel' hfits]
    · rintro ⟨before, happend, hlength⟩
      -- the offset is not 0, so the first character comes before it
      cases before with
      | nil => exact absurd hlength.symm hn
      | cons d before =>
        obtain ⟨rfl, rfl⟩ := List.cons.inj happend
        refine ⟨before, rfl, ?_⟩
        rw [← hlength, byteLength_cons, Nat.add_sub_cancel_left]
  | case5 n c cs hn hfits =>
    constructor
    · intro h
      exact absurd h (by simp)
    · rintro ⟨before, happend, hlength⟩
      cases before with
      | nil => exact absurd hlength.symm hn
      | cons d before =>
        obtain ⟨rfl, rfl⟩ := List.cons.inj happend
        rw [byteLength_cons] at hlength
        omega

/-- There is no text from an offset on that is no boundary. -/
theorem dropBytes?_eq_none_iff : dropBytes? n cs = none ↔ ¬ Boundary cs n := by
  rw [Option.eq_none_iff_forall_ne_some]
  constructor
  · rintro h ⟨before, after, happend, hlength⟩
    exact h after (dropBytes?_eq_some_iff.2 ⟨before, happend, hlength⟩)
  · intro h rest hrest
    obtain ⟨before, happend, hlength⟩ := dropBytes?_eq_some_iff.1 hrest
    exact h ⟨before, rest, happend, hlength⟩

/-! ## Boundaries next to an offset -/

/-- A text begins at a boundary. -/
theorem boundary_zero (cs : List Char) : Boundary cs 0 := ⟨[], cs, rfl, rfl⟩

/-- No boundary lies behind the end. -/
theorem Boundary.le_byteLength (h : Boundary cs n) : n ≤ byteLength cs := by
  obtain ⟨before, after, rfl, rfl⟩ := h
  rw [byteLength_append]
  exact Nat.le_add_right _ _

/-- A boundary comes before the first character, or behind it at a boundary of the others. -/
theorem boundary_cons_iff {c : Char} :
    Boundary (c :: cs) n ↔ n = 0 ∨ ∃ m, Boundary cs m ∧ n = c.utf8Size + m := by
  constructor
  · rintro ⟨before, after, happend, rfl⟩
    cases before with
    | nil => exact .inl rfl
    | cons d before =>
      obtain ⟨rfl, rfl⟩ := List.cons.inj happend
      exact .inr ⟨byteLength before, ⟨before, after, rfl, rfl⟩, byteLength_cons c before⟩
  · rintro (rfl | ⟨m, ⟨before, after, rfl, rfl⟩, rfl⟩)
    · exact boundary_zero _
    · exact ⟨c :: before, after, rfl, byteLength_cons c before⟩

/-- No boundary up to the offset is greater than the one found. -/
theorem isGreatest_floorBoundary (n : Nat) (cs : List Char) :
    IsGreatest {m | Boundary cs m ∧ m ≤ n} (floorBoundary n cs) := by
  unfold floorBoundary
  fun_induction takeBytes n cs with
  | case1 n => exact ⟨⟨boundary_zero [], Nat.zero_le n⟩, fun m hm => hm.1.le_byteLength⟩
  | case2 n c cs hfits ih =>
    obtain ⟨⟨hboundary, hle⟩, hgreatest⟩ := ih
    rw [byteLength_cons]
    refine ⟨⟨boundary_cons_iff.2 (.inr ⟨_, hboundary, rfl⟩), by omega⟩, ?_⟩
    rintro m ⟨hm, hmn⟩
    rcases boundary_cons_iff.1 hm with rfl | ⟨m, hrest, rfl⟩
    · exact Nat.zero_le _
    · exact Nat.add_le_add_left (hgreatest ⟨hrest, by omega⟩) _
  | case3 n c cs hfits =>
    -- the first character does not end in time, so no boundary behind it counts
    refine ⟨⟨boundary_zero _, Nat.zero_le n⟩, ?_⟩
    rintro m ⟨hm, hmn⟩
    rcases boundary_cons_iff.1 hm with rfl | ⟨m, -, rfl⟩
    · exact Nat.le_refl 0
    · omega

/-- No boundary from the offset on, or from the end of the text if that comes first, is less than
the one found. -/
theorem isLeast_ceilBoundary (n : Nat) (cs : List Char) :
    IsLeast {m | Boundary cs m ∧ min n (byteLength cs) ≤ m} (ceilBoundary n cs) := by
  fun_induction ceilBoundary n cs with
  | case1 n => exact ⟨⟨boundary_zero [], Nat.min_le_right n 0⟩, fun m _ => Nat.zero_le m⟩
  | case2 c cs => exact ⟨⟨boundary_zero _, Nat.min_le_left 0 _⟩, fun m _ => Nat.zero_le m⟩
  | case3 n c cs hn ih =>
    obtain ⟨⟨hboundary, hle⟩, hleast⟩ := ih
    have hpos := c.utf8Size_pos
    refine ⟨⟨boundary_cons_iff.2 (.inr ⟨_, hboundary, rfl⟩), ?_⟩, ?_⟩
    · rw [byteLength_cons]
      omega
    · rintro m ⟨hm, hnm⟩
      rw [byteLength_cons] at hnm
      rcases boundary_cons_iff.1 hm with rfl | ⟨m, hrest, rfl⟩
      · omega
      · exact Nat.add_le_add_left (hleast ⟨hrest, by omega⟩) _

/-! ## Slices -/

/-- A slice begins at a boundary. -/
theorem Slice.boundary (h : Slice cs n m u) : Boundary cs n := by
  obtain ⟨before, after, happend, hstart, -⟩ := h
  exact ⟨before, u ++ after, by rw [happend, List.append_assoc], hstart⟩

/-- The slices from a boundary on are the beginnings of the text from there on. -/
theorem slice_append_iff :
    Slice (before ++ rest) (byteLength before) m u ↔
      u <+: rest ∧ byteLength before + byteLength u = m := by
  constructor
  · rintro ⟨before', after, happend, hstart, hstop⟩
    have hbefore : before' = before := by
      refine eq_of_byteLength_eq ?_ (List.prefix_append before rest) hstart
      rw [happend, List.append_assoc]
      exact List.prefix_append before' _
    subst hbefore
    rw [List.append_assoc] at happend
    rw [byteLength_append] at hstop
    exact ⟨⟨after, (List.append_cancel_left happend).symm⟩, hstop⟩
  · rintro ⟨⟨after, rfl⟩, hstop⟩
    refine ⟨before, after, (List.append_assoc _ _ _).symm, rfl, ?_⟩
    rw [byteLength_append, hstop]

/-- The bytes of a beginning give this beginning. -/
theorem takeBytes_append (u v : List Char) : takeBytes (byteLength u) (u ++ v) = u := by
  induction u with
  | nil =>
    cases v with
    | nil => rfl
    | cons c v => exact if_neg (Nat.not_le_of_lt c.utf8Size_pos)
  | cons c u ih =>
    rw [List.cons_append, takeBytes, byteLength_cons, if_pos (Nat.le_add_right _ _),
      Nat.add_sub_cancel_left, ih]

/-- What stands between two boundaries is found. -/
theorem Boundary.slice (hn : Boundary cs n) (hm : Boundary cs m) (hle : n ≤ m) :
    Slice cs n m (takeBytes (m - n) ((dropBytes? n cs).getD [])) := by
  obtain ⟨u, w, rfl, rfl⟩ := hn
  obtain ⟨v, after, happend, rfl⟩ := hm
  have hu := List.prefix_append u w
  have hv : v <+: u ++ w := happend ▸ List.prefix_append v after
  -- the text up to the first boundary begins the text up to the second one
  have hlength := length_lt_iff_byteLength_lt hv hu
  obtain ⟨piece, rfl⟩ := List.prefix_of_prefix_length_le hu hv (by omega)
  rw [List.append_assoc] at happend
  obtain rfl := List.append_cancel_left happend
  have hdrop : dropBytes? (byteLength u) (u ++ (piece ++ after)) = some (piece ++ after) :=
    dropBytes?_eq_some_iff.2 ⟨u, rfl, rfl⟩
  rw [hdrop, Option.getD_some, byteLength_append, Nat.add_sub_cancel_left, takeBytes_append]
  exact ⟨u, after, (List.append_assoc _ _ _).symm, rfl, byteLength_append u piece⟩

/-- The character behind a slice stands at that place in every longer slice. -/
theorem Slice.getElem?_length {k : Nat} {c : Char} {w piece : List Char} (hw : Slice cs n m w)
    (hpiece : Slice cs n k piece) (hcs : cs = before ++ c :: rest) (hbefore : byteLength before = m)
    (hlt : m < k) : piece[w.length]? = some c := by
  subst hcs
  obtain ⟨u, after, hu, rfl, hm⟩ := hw
  have hprefix : u ++ w <+: before ++ c :: rest := hu ▸ List.prefix_append _ _
  obtain rfl := eq_of_byteLength_eq hprefix (List.prefix_append _ _) (hm.trans hbefore.symm)
  rw [List.append_assoc, slice_append_iff] at hpiece
  obtain ⟨⟨last, hlast⟩, hk⟩ := hpiece
  rw [byteLength_append] at hbefore
  have hlength := (length_lt_iff_byteLength_lt (List.prefix_append w _)
    (hlast ▸ List.prefix_append piece last)).2 (by omega)
  rw [← List.getElem?_append_left hlength, hlast, List.getElem?_append_right (Nat.le_refl _),
    Nat.sub_self]
  rfl

end MaximalMunch.Text
