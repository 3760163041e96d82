import MaximalMunch.Proofs.CharClass.Tagged
import MaximalMunch.Tables.Basic

/-!
# Looking up in tables

In ranges that are in increasing order bisection ends at the range that holds the code point, if
there is one (`find?_eq_bisect`, `classInRanges_eq`). A matrix that is written row after row has its
entries where they are looked up (`getElem?_rows`).
-/

namespace MaximalMunch

open MaximalMunch.Span (Tagged)
open MaximalMunch.Span.Tagged (Maps Increasing)

/-! ## Bisection -/

section Bisection

variable {ranges : Array ClassRange} {cp : UInt32} {k : Nat}

/-- Bisection ends at the last range that does not begin above the code point. -/
theorem bisect_eq (hbelow : ∀ i ≤ k, (ranges.getD i default).lo.toNat ≤ cp.toNat)
    (habove : ∀ i, k < i → i < ranges.size → cp.toNat < (ranges.getD i default).lo.toNat)
    {base size : Nat} (hbase : base ≤ k) (hk : k < base + size)
    (hsize : base + size ≤ ranges.size) : bisect ranges cp base size = k := by
  fun_induction bisect ranges cp base size with
  | case1 base size hle => omega
  | case2 base size hlt middle next ih =>
    have hmiddle : middle = base + size / 2 := rfl
    by_cases hcp : cp < (ranges.getD middle default).lo
    · -- the upper part begins above the code point, so `k` comes before it
      have hnext : next = base := if_pos hcp
      have : k < middle := by
        apply Nat.lt_of_not_le
        intro hle
        have := hbelow middle hle
        have := UInt32.lt_iff_toNat_lt.1 hcp
        omega
      rw [hnext] at ih ⊢
      exact ih hbase (by omega) (by omega)
    · -- the upper part begins with a range that does not, so `k` is in it
      have hnext : next = middle := if_neg hcp
      have : middle ≤ k := by
        refine Nat.le_of_not_lt fun hlt => hcp (UInt32.lt_iff_toNat_lt.2 ?_)
        exact habove middle hlt (by omega)
      rw [hnext] at ih ⊢
      exact ih this (by omega) (by omega)

end Bisection

/-- A tagged span as an entry of a table. -/
def ClassRange.ofTagged (r : Tagged UInt32) : ClassRange :=
  { r.toSpan with classId := r.tag }

/-- Bisection of ranges in increasing order ends at the range that holds the code point. -/
theorem bisect_of_contains {l : List (Tagged UInt32)} (hl : Increasing l) {cp : UInt32} {k : Nat}
    {r : Tagged UInt32} (hr : l[k]? = some r) (hcp : r.contains cp = true) :
    bisect (l.map ClassRange.ofTagged).toArray cp 0 l.length = k := by
  obtain ⟨hk, rfl⟩ := List.getElem?_eq_some_iff.1 hr
  rw [Span.contains_iff] at hcp
  have hget : ∀ (i : Nat) (hi : i < l.length),
      ((l.map ClassRange.ofTagged).toArray.getD i default).lo = l[i].lo := by
    intro i hi
    simp [Array.getD, hi, ClassRange.ofTagged]
  have hordered := List.pairwise_iff_getElem.1 hl.ordered
  -- ranges before `k` end below the code point, those behind it begin above
  refine bisect_eq (fun i hi => ?_) (fun i hki hi => ?_) (Nat.zero_le k) (by omega) (by simp)
  · rw [hget i (Nat.lt_of_le_of_lt hi hk)]
    rcases Nat.lt_or_eq_of_le hi with hlt | rfl
    · have := hordered i k (Nat.lt_trans hlt hk) hk hlt
      have := hl.proper l[i] (List.getElem_mem _)
      omega
    · exact hcp.1
  · have hi' : i < l.length := by simpa using hi
    rw [hget i hi']
    have := hordered k i hk hi' hki
    omega

/-- Looking a code point up by bisection is looking it up from the first item on. -/
theorem find?_eq_bisect {β : Type} (span : β → Tagged UInt32) {items : List β}
    (h : Increasing (items.map span)) (cp : UInt32) :
    items.find? (fun b => (span b).contains cp) =
      items[bisect ((items.map span).map ClassRange.ofTagged).toArray cp 0 items.length]?.filter
        fun b => (span b).contains cp := by
  cases hfind : items.find? (fun b => (span b).contains cp) with
  | some b =>
    obtain ⟨k, hk⟩ := List.getElem?_of_mem (List.mem_of_find?_eq_some hfind)
    have hcp : (span b).contains cp = true := by simpa using List.find?_some hfind
    have hbisect := bisect_of_contains h (k := k) (by rw [List.getElem?_map, hk]; rfl) hcp
    rw [List.length_map] at hbisect
    rw [hbisect, hk, Option.filter_some, if_pos hcp]
  | none =>
    -- bisection ends at some item even then, but the code point is not in it
    have hnone := List.find?_eq_none.1 hfind
    generalize bisect _ cp 0 items.length = k
    cases hk : items[k]? with
    | none => rfl
    | some b => rw [Option.filter_some, if_neg (hnone b (List.mem_of_getElem? hk))]

/-- Ranges in increasing order give a code point the class that they map it to, and class 0 if they
do not map it. -/
theorem Tables.classInRanges_eq {t : Tables} {l : List (Tagged UInt32)} (hl : Increasing l)
    (ht : t.classRanges = (l.map ClassRange.ofTagged).toArray) (cp : UInt32) :
    Maps l cp (t.classInRanges cp) ∨ (t.classInRanges cp = 0 ∧ ∀ c, ¬ Maps l cp c) := by
  -- bisection finds what a search from the front finds
  have hlookup : t.classInRanges cp = ((l.find? (·.contains cp)).map (·.tag)).getD 0 := by
    have hfind := find?_eq_bisect id (by rwa [List.map_id]) cp
    rw [List.map_id] at hfind
    rw [classInRanges, ht, List.size_toArray, List.length_map, List.getElem?_toArray,
      List.getElem?_map]
    refine Eq.trans ?_ (congrArg (fun r => (r.map Tagged.tag).getD 0) hfind.symm)
    cases l[bisect (l.map ClassRange.ofTagged).toArray cp 0 l.length]? with
    | none => rfl
    | some r =>
      rw [Option.filter_some]
      show (if r.contains cp = true then r.tag else 0) =
        (Option.map Tagged.tag (if r.contains cp = true then some r else none)).getD 0
      split <;> rfl
  rw [hlookup]
  cases hfind : l.find? (·.contains cp) with
  | some r =>
    have hcp : r.contains cp = true := by simpa using List.find?_some hfind
    exact Or.inl ⟨r, List.mem_of_find?_eq_some hfind, hcp, rfl⟩
  | none =>
    refine Or.inr ⟨rfl, ?_⟩
    rintro c ⟨r, hr, hcp, -⟩
    exact List.find?_eq_none.1 hfind r hr hcp

/-! ## Rows -/

/-- The entry of column `k` in row `i` of a matrix that is written row after row. -/
theorem getElem?_rows {α β : Type} (f : Nat → β → α) (columns : List β) {k : Nat}
    (hk : k < columns.length) (i : Nat) : ∀ m : Nat,
    ((List.range m).flatMap fun i => columns.map (f i))[i * columns.length + k]? =
      if i < m then columns[k]?.map (f i) else none := by
  have hlen : ∀ m, ((List.range m).flatMap fun i => columns.map (f i)).length =
      m * columns.length := by
    intro m
    induction m with
    | zero => simp
    | succ m ih =>
      rw [List.range_succ, List.flatMap_append, List.length_append, ih, Nat.succ_mul]
      simp
  intro m
  induction m with
  | zero => simp
  | succ m ih =>
    rw [List.range_succ, List.flatMap_append, List.getElem?_append, hlen, ih]
    -- the entry is in an earlier row, in the last one, or behind all rows
    by_cases hi : i < m
    · have : (i + 1) * columns.length ≤ m * columns.length := Nat.mul_le_mul_right _ hi
      rw [Nat.succ_mul] at this
      rw [if_pos (by omega), if_pos hi, if_pos (by omega)]
    · have : m * columns.length ≤ i * columns.length := Nat.mul_le_mul_right _ (by omega)
      rw [if_neg (by omega), List.flatMap_singleton, List.getElem?_map]
      by_cases him : i = m
      · subst him
        rw [if_pos (by omega), Nat.add_sub_cancel_left]
      · have hle : (m + 1) * columns.length ≤ i * columns.length :=
          Nat.mul_le_mul_right _ (by omega)
        rw [Nat.succ_mul] at hle
        rw [if_neg (by omega), List.getElem?_eq_none (by omega), Option.map_none]

end MaximalMunch
