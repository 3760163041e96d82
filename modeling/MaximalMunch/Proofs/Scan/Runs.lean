import MaximalMunch.Scan.Scanner

/-!
# Runs of the scanner

A run takes one piece after the other until none is left (`Automaton.Run`). `Automaton.scan` makes
such a run (`run_scan`), and so does whoever calls `Automaton.nextItem` again and again: the calls
give the pieces of the run one by one and nothing after that (`Run.nextItem_cursorAfter`).
-/

namespace MaximalMunch

/-- The characters of the text that a piece takes up. -/
def ScanItem.piece : ScanItem → List Char
  | .ok t => t.lexeme.toList
  | .error e => [e.found]

/-- Where a piece begins. -/
def ScanItem.position : ScanItem → Position
  | .ok t => t.position
  | .error e => e.position

namespace Automaton

variable {σ : Type} {A : Automaton σ} {skip : List String} {k k' stop : Cursor} {i : ScanItem}
  {items : List (ScanItem × Position)}

/-! ## One piece -/

/-- There is a piece at the cursor unless the text ends there. -/
theorem item?_eq_none_iff : A.item? k = none ↔ k.rest = [] := by
  cases h : k.rest with
  | nil => simp [item?, h]
  | cons c rest =>
    rw [item?.eq_def, h]
    constructor
    · intro hnone
      dsimp only at hnone
      split at hnone <;> exact absurd hnone (by simp)
    · intro hnil
      exact absurd hnil (by simp)

/-- The piece at the cursor is taken off the text, and the position moves over it. -/
theorem of_item? (h : A.item? k = some (i, k')) :
    k.rest = i.piece ++ k'.rest ∧ i.piece ≠ [] ∧ i.position = k.position ∧
      k'.position = k.position.advanceOver i.piece := by
  unfold item? at h
  split at h
  · exact absurd h (by simp)
  · rename_i c rest hrest
    split at h
    · rename_i n name hlongest
      have hpos := longestPrefix_pos hlongest
      obtain ⟨rfl, rfl⟩ := Prod.mk.inj (Option.some.inj h)
      have hpiece : ScanItem.piece (.ok ⟨name, String.ofList (k.rest.take n), k.position⟩) =
          k.rest.take n := String.toList_ofList
      rw [hpiece]
      -- the longest prefix is not empty and neither is the rest
      refine ⟨(List.take_append_drop n k.rest).symm, fun hnil => ?_, rfl, rfl⟩
      rw [List.take_eq_nil_iff, hrest] at hnil
      rcases hnil with rfl | hnil
      · omega
      · exact absurd hnil (by simp)
    · obtain ⟨rfl, rfl⟩ := Prod.mk.inj (Option.some.inj h)
      exact ⟨hrest, by simp [ScanItem.piece], rfl, rfl⟩

/-- At the end of the text there is no next piece. -/
theorem nextItem_of_rest_nil (hk : k.rest = []) : A.nextItem skip k = (none, k) := by
  unfold nextItem
  split
  · rfl
  all_goals
    rename_i h
    rw [item?_eq_none_iff.2 hk] at h
    exact absurd h (by simp)

/-- If there is no next piece, the cursor has come to the end of the text. -/
theorem rest_of_nextItem_none (h : A.nextItem skip k = (none, k')) : k'.rest = [] := by
  fun_induction A.nextItem skip k with
  | case1 k hitem =>
    rw [← (Prod.mk.inj h).2]
    exact item?_eq_none_iff.1 hitem
  | case2 => exact absurd (Prod.mk.inj h).1 (by simp)
  | case3 k t k'' hitem _ ih => exact ih h
  | case4 => exact absurd (Prod.mk.inj h).1 (by simp)

/-- Without names to be skipped the next piece is the piece at the cursor. -/
theorem nextItem_nil_eq (A : Automaton σ) (k : Cursor) :
    A.nextItem [] k =
      match A.item? k with
      | none => (none, k)
      | some (i, k') => (some i, k') := by
  unfold nextItem
  split <;> rename_i h <;> rw [h]
  rw [if_neg List.not_mem_nil]

/-! ## Runs -/

/-- From a cursor the scanner takes some pieces, each of them with the position behind it, and then
stops at a cursor because there is none left. -/
inductive Run (A : Automaton σ) (skip : List String) :
    Cursor → List (ScanItem × Position) → Cursor → Prop
  | stop {k stop : Cursor} (h : A.nextItem skip k = (none, stop)) : Run A skip k [] stop
  | item {k k' stop : Cursor} {i : ScanItem} {items : List (ScanItem × Position)}
      (h : A.nextItem skip k = (some i, k')) (rest : Run A skip k' items stop) :
      Run A skip k ((i, k'.position) :: items) stop

/-- Scanning on from a cursor is a run, whose pieces come after those found before. -/
theorem run_scanFrom (A : Automaton σ) (skip : List String) (found : Array (ScanItem × Position))
    (k : Cursor) : ∃ items, (A.scanFrom skip found k).items.toList = found.toList ++ items ∧
      A.Run skip k items (A.scanFrom skip found k).stop := by
  fun_induction A.scanFrom skip found k with
  | case1 found k k' h => exact ⟨[], (List.append_nil _).symm, .stop h⟩
  | case2 found k i k' h ih =>
    obtain ⟨items, hitems, hrun⟩ := ih
    refine ⟨(i, k'.position) :: items, ?_, .item h hrun⟩
    rw [hitems, Array.toList_push, List.append_assoc]
    rfl

/-- Scanning a text is a run from its beginning. -/
theorem run_scan (A : Automaton σ) (skip : List String) (text : String) :
    A.Run skip (.ofText text) (A.scan skip text).items.toList (A.scan skip text).stop := by
  obtain ⟨items, hitems, hrun⟩ := A.run_scanFrom skip #[] (.ofText text)
  rw [List.nil_append] at hitems
  rw [scan, hitems]
  exact hrun

/-- A run stops at the end of the text. -/
theorem Run.rest_stop (H : A.Run skip k items stop) : stop.rest = [] := by
  induction H with
  | stop h => exact rest_of_nextItem_none h
  | item _ _ ih => exact ih

/-! ## Call after call -/

/-- The cursor after some calls for the next piece. -/
def cursorAfter (A : Automaton σ) (skip : List String) (k : Cursor) : Nat → Cursor
  | 0 => k
  | n + 1 => A.cursorAfter skip (A.nextItem skip k).2 n

/-- Calls at the end of the text leave the cursor there. -/
theorem cursorAfter_of_rest_nil (hk : k.rest = []) (n : Nat) : A.cursorAfter skip k n = k := by
  induction n with
  | zero => rfl
  | succ n ih => rw [cursorAfter, nextItem_of_rest_nil hk, ih]

/-- The calls give the pieces of the run in order, and nothing after that. -/
theorem Run.nextItem_cursorAfter (H : A.Run skip k items stop) : ∀ n : Nat,
    (A.nextItem skip (A.cursorAfter skip k n)).1 = items[n]?.map (·.1) ∧
      (A.nextItem skip (A.cursorAfter skip k n)).2.position =
        (items[n]?.map (·.2)).getD stop.position := by
  induction H with
  | @stop k stop h =>
    intro n
    have hstop := rest_of_nextItem_none h
    cases n with
    | zero => rw [cursorAfter, h]; exact ⟨rfl, rfl⟩
    | succ n =>
      rw [cursorAfter, h, cursorAfter_of_rest_nil hstop, nextItem_of_rest_nil hstop]
      exact ⟨rfl, rfl⟩
  | item h _ ih =>
    intro n
    cases n with
    | zero => rw [cursorAfter, h]; exact ⟨rfl, rfl⟩
    | succ n => rw [cursorAfter, h]; exact ih n

end Automaton

end MaximalMunch
