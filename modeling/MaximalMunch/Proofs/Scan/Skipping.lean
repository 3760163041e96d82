import MaximalMunch.Proofs.Scan.Tiling

/-!
# Skipping is filtering

A run that skips the tokens with some names takes the pieces of the run that skips nothing, without
these tokens and with the same positions, and both stop at the same cursor (`Run.filter`). A text
has one run only (`Run.unique`), so this is what scanning gives (`items_scan`), and what the calls
for the next piece give one by one (`skipping_filters`).
-/

namespace MaximalMunch

/-- The piece is an error, or a token whose name is not in `skip`. -/
def ScanItem.isKept (skip : List String) : ScanItem → Bool
  | .ok t => decide (t.name ∉ skip)
  | .error _ => true

namespace Automaton

variable {σ : Type} {A : Automaton σ} {skip : List String} {k k' stop stop' : Cursor}
  {i : ScanItem} {items items' : List (ScanItem × Position)}

/-! ## One call -/

/-- A piece that is kept is the next one. -/
theorem nextItem_of_isKept (h : A.item? k = some (i, k')) (hi : i.isKept skip = true) :
    A.nextItem skip k = (some i, k') := by
  unfold nextItem
  split
  · rename_i hnone
    exact absurd (hnone.symm.trans h) (by simp)
  · rename_i e k'' herror
    obtain ⟨rfl, rfl⟩ := Prod.mk.inj (Option.some.inj (herror.symm.trans h))
    rfl
  · rename_i t k'' htoken
    obtain ⟨rfl, rfl⟩ := Prod.mk.inj (Option.some.inj (htoken.symm.trans h))
    rw [if_neg (of_decide_eq_true hi)]

/-- A piece that is not kept is passed over in the same call. -/
theorem nextItem_of_not_isKept (h : A.item? k = some (i, k')) (hi : i.isKept skip = false) :
    A.nextItem skip k = A.nextItem skip k' := by
  conv => lhs; unfold nextItem
  split
  · rename_i hnone
    exact absurd (hnone.symm.trans h) (by simp)
  · rename_i e k'' herror
    obtain ⟨rfl, rfl⟩ := Prod.mk.inj (Option.some.inj (herror.symm.trans h))
    exact absurd hi (by simp [ScanItem.isKept])
  · rename_i t k'' htoken
    obtain ⟨rfl, rfl⟩ := Prod.mk.inj (Option.some.inj (htoken.symm.trans h))
    rw [if_pos (Classical.not_not.1 (of_decide_eq_false hi))]

/-! ## Whole runs -/

/-- A run begins with a call, and the cursor matters to it only through that call. -/
theorem Run.of_nextItem_eq (h : A.nextItem skip k = A.nextItem skip k')
    (H : A.Run skip k' items stop) : A.Run skip k items stop := by
  cases H with
  | stop hnone => exact .stop (h.trans hnone)
  | item hitem rest => exact .item (h.trans hitem) rest

/-- There is one run from a cursor. -/
theorem Run.unique (H : A.Run skip k items stop) (H' : A.Run skip k items' stop') :
    items = items' ∧ stop = stop' := by
  induction H generalizing items' with
  | stop h =>
    cases H' with
    | stop h' => exact ⟨rfl, (Prod.mk.inj (h.symm.trans h')).2⟩
    | item h' _ => exact absurd (Prod.mk.inj (h.symm.trans h')).1 (by simp)
  | item h _ ih =>
    cases H' with
    | stop h' => exact absurd (Prod.mk.inj (h.symm.trans h')).1 (by simp)
    | item h' rest' =>
      obtain ⟨hi, rfl⟩ := Prod.mk.inj (h.symm.trans h')
      obtain rfl := Option.some.inj hi
      obtain ⟨rfl, hstop⟩ := ih rest'
      exact ⟨rfl, hstop⟩

/-- The run that skips some names has the pieces that are kept, and it stops where the other one
does. -/
theorem Run.filter (H : A.Run [] k items stop) (skip : List String) :
    A.Run skip k (items.filter (·.1.isKept skip)) stop := by
  induction H with
  | @stop k stop h =>
    have hrest := rest_of_nextItem_none h
    rw [cursor_of_nextItem_nil_none h] at hrest ⊢
    exact .stop (nextItem_of_rest_nil hrest)
  | @item k k' stop i items h _ ih =>
    have hitem := item?_of_nextItem_nil h
    cases hi : i.isKept skip with
    | true =>
      rw [List.filter_cons, if_pos hi]
      exact .item (nextItem_of_isKept hitem hi) ih
    | false =>
      rw [List.filter_cons, if_neg (Bool.eq_false_iff.1 hi)]
      exact ih.of_nextItem_eq (nextItem_of_not_isKept hitem hi)

/-- Scanning that skips some names gives the pieces that are kept. -/
theorem items_scan (A : Automaton σ) (skip : List String) (text : String) :
    (A.scan skip text).items.toList =
      (A.scan [] text).items.toList.filter (·.1.isKept skip) :=
  ((A.run_scan skip text).unique ((A.run_scan [] text).filter skip)).1

/-- Scanning stops at the same cursor, whatever it skips. -/
theorem stop_scan (A : Automaton σ) (skip : List String) (text : String) :
    (A.scan skip text).stop = (A.scan [] text).stop :=
  ((A.run_scan skip text).unique ((A.run_scan [] text).filter skip)).2

/-! ## Call after call -/

/-- After the pieces of a run, every further call finds nothing and leaves the cursor where the run
stops. The first of them may still pass over skipped tokens on its way there. -/
theorem Run.nextItem_of_exhausted (H : A.Run skip k items stop) (n : Nat) :
    A.nextItem skip (A.cursorAfter skip k (items.length + n)) = (none, stop) := by
  induction H with
  | @stop k stop h =>
    have hstop : A.nextItem skip stop = (none, stop) :=
      nextItem_of_rest_nil (rest_of_nextItem_none h)
    rw [List.length_nil, Nat.zero_add]
    cases n with
    | zero => exact h
    | succ n =>
      rw [cursorAfter, h, cursorAfter_of_rest_nil (rest_of_nextItem_none h)]
      exact hstop
  | @item k k' stop i items h _ ih =>
    rw [List.length_cons, Nat.add_right_comm, cursorAfter, h]
    exact ih

/-- For any automaton, text and names to be skipped: scanning that skips them gives the pieces of
the scan that skips nothing, less the tokens with these names, each with the same position behind
it, and it stops at the same cursor. Call by call, the scanner gives the pieces that are kept; after
these, both scanners find nothing any more and stay where the text ends. -/
theorem skipping_filters {σ : Type} (A : Automaton σ) (skip : List String) (text : String) :
    let plain := A.scan [] text
    let kept := plain.items.toList.filter (·.1.isKept skip)
    (A.scan skip text).items.toList = kept ∧
    (A.scan skip text).stop = plain.stop ∧ plain.stop.rest = [] ∧
    (∀ n, (A.nextItem skip (A.cursorAfter skip (.ofText text) n)).1 = kept[n]?.map (·.1) ∧
      (A.nextItem skip (A.cursorAfter skip (.ofText text) n)).2.position =
        (kept[n]?.map (·.2)).getD plain.stop.position) ∧
    ∀ n, A.nextItem skip (A.cursorAfter skip (.ofText text) (kept.length + n)) =
        (none, plain.stop) ∧
      A.nextItem [] (A.cursorAfter [] (.ofText text) (plain.items.size + n)) =
        (none, plain.stop) := by
  intro plain kept
  have hplain : A.Run [] (.ofText text) plain.items.toList plain.stop := A.run_scan [] text
  -- skipped items drop out of the run of calls; the run ends where it did
  have hkept : A.Run skip (.ofText text) kept plain.stop := hplain.filter skip
  refine ⟨A.items_scan skip text, A.stop_scan skip text, hplain.rest_stop,
    hkept.nextItem_cursorAfter, fun n => ⟨hkept.nextItem_of_exhausted n, ?_⟩⟩
  rw [← Array.length_toList]
  exact hplain.nextItem_of_exhausted n

end Automaton

end MaximalMunch
