import MaximalMunch.Proofs.Regex.Tracking

/-!
# Where reading stops

Reading a pattern fails at a character, whatever comes after it, or at the end of the text
(`exists_of_parseChars_eq_error`). Failures of the second kind say that the text ends too early
(`SyntaxError.AtEnd`); all others are decided by the characters up to the fault, so that a longer
text has the same one (`early_faults_persist`).
-/

namespace MaximalMunch.Regex

/-- The error says that the text ends too early; `n` is the number of its characters. -/
def SyntaxError.AtEnd (n : Nat) : SyntaxError → Prop
  | .unclosedGroup _ | .unterminatedClass _ | .unterminatedReference _ | .trailingEscape => True
  | .emptyAlternative offset => offset = n
  | _ => False

/-! ## Faults at a character -/

/-- The ways in which the character `c` is at fault in a class. -/
inductive OpenClass.Fault (k : OpenClass) (c : Char) : SyntaxError → Prop
  | empty (hc : c = ']') : Fault k c (.emptyClass k.start)
  | shorthandLow {members : CharClass} {start : Nat}
      (hplace : k.place = .hyphen (.shorthand members) start) :
      Fault k c (.invalidRangeEndpoint start)
  | shorthandHigh {lo : Char} {members : CharClass} {start escapeStart : Nat}
      (hplace : k.place = .upperEscape lo start escapeStart)
      (hc : escapeItem c = .shorthand members) : Fault k c (.invalidRangeEndpoint escapeStart)
  | reversed {lo hi : Char} {start : Nat}
      (hplace : k.place = .hyphen (.char lo) start ∨
        ∃ escapeStart, k.place = .upperEscape lo start escapeStart)
      (hlt : hi < lo) : Fault k c (.reversedRange lo hi start)

/-- The ways in which the character `c` is at fault. -/
inductive Reader.Fault (s : Reader) (c : Char) : SyntaxError → Prop
  | emptyAlternative (hplace : s.place = .atom) (hc : c = '|' ∨ c = ')')
      (hitems : s.level.items = []) : Fault s c (.emptyAlternative s.offset)
  | emptyGroup {start : Nat} {around : Level} {outer : List (Nat × Level)}
      (hplace : s.place = .atom) (hc : c = ')') (houter : s.outer = (start, around) :: outer)
      (hitems : s.level.items = []) (hbranches : s.level.branches = []) :
      Fault s c (.emptyGroup start)
  | unmatchedParen (hplace : s.place = .atom) (hc : c = ')') (houter : s.outer = [])
      (hitems : s.level.items ≠ []) : Fault s c (.unmatchedParen s.offset)
  | nothingToRepeat {times : Repetition} (hplace : s.place = .atom) (hc : Operator c times)
      (hitems : s.level.items = []) : Fault s c (.nothingToRepeat c s.offset)
  | invalidReference {start : Nat} {name : List Char} (hplace : s.place = .reference start name)
      (hc : c = '}') (hname : Text.isWord name.reverse = false) :
      Fault s c (.invalidReference (String.ofList name.reverse) start)
  | inClass {k : OpenClass} {e : SyntaxError} (hplace : s.place = .inClass k) (h : k.Fault c e) :
      Fault s c e

/-- A mapped computation fails as the computation does. -/
theorem eq_error_of_map_eq_error {ε α β : Type} {f : α → β} {x : Except ε α} {e : ε}
    (h : x.map f = .error e) : x = .error e := by
  cases x with
  | error e' => exact congrArg Except.error (Except.error.inj h)
  | ok a => exact absurd h (by simp [Except.map])

namespace OpenClass

variable {k : OpenClass} {c : Char} {offset : Nat} {e : SyntaxError}

/-- A class that cannot be closed is empty. -/
theorem eq_of_close_eq_error (h : k.close = .error e) : e = .emptyClass k.start := by
  simp only [close] at h
  generalize (if k.negated then k.members.negate else k.members) = members at h
  split at h
  · exact (Except.error.inj h).symm
  · exact absurd h (by simp)

/-- A range that cannot be added is reversed. -/
theorem of_addRange_eq_error {lo hi : Char} {start : Nat}
    (h : k.addRange lo hi start = .error e) : e = .reversedRange lo hi start ∧ hi < lo := by
  unfold addRange at h
  split at h
  case isTrue hlt => exact ⟨(Except.error.inj h).symm, hlt⟩
  case isFalse => exact absurd h (by simp)

/-- At the closing bracket a class can only be empty. -/
theorem fault_of_close {k' : OpenClass} {f : CharClass → OpenClass ⊕ CharClass}
    (h : k'.close.map f = .error e) (hk : k'.start = k.start) (hc : c = ']') : k.Fault c e := by
  rw [eq_of_close_eq_error (eq_error_of_map_eq_error h), hk]
  exact .empty hc

/-- What can go wrong behind a hyphen. -/
theorem fault_of_hyphen {item : ClassItem} {start : Nat} (hplace : k.place = .hyphen item start)
    (h : k.step c offset = .error e) : k.Fault c e := by
  simp only [step, hplace] at h
  split at h
  case isTrue hc => exact fault_of_close h rfl hc
  case isFalse =>
    cases item with
    | shorthand members =>
      obtain rfl := Except.error.inj h
      exact .shorthandLow hplace
    | char lo =>
      dsimp only at h
      split at h
      · exact absurd h (by simp)
      · obtain ⟨rfl, hlt⟩ := of_addRange_eq_error (eq_error_of_map_eq_error h)
        exact .reversed (.inl hplace) hlt

/-- What can go wrong with an escape behind a hyphen. -/
theorem fault_of_upperEscape {lo : Char} {start escapeStart : Nat}
    (hplace : k.place = .upperEscape lo start escapeStart) (h : k.step c offset = .error e) :
    k.Fault c e := by
  simp only [step, hplace] at h
  cases hc : escapeItem c with
  | shorthand members =>
    rw [hc] at h
    obtain rfl := Except.error.inj h
    exact .shorthandHigh hplace hc
  | char hi =>
    rw [hc] at h
    obtain ⟨rfl, hlt⟩ := of_addRange_eq_error (eq_error_of_map_eq_error h)
    exact .reversed (.inr ⟨escapeStart, hplace⟩) hlt

/-- A class is faulty in these ways only. -/
theorem fault_of_step (h : k.step c offset = .error e) : k.Fault c e := by
  have hstep := h
  unfold step at h
  split at h
  case h_1 =>
    split at h
    · exact absurd h (by simp)
    · split at h
      case isTrue hc => exact Except.error.inj h ▸ .empty hc
      case isFalse => exact absurd h (by simp)
  case h_2 =>
    split at h
    case isTrue hc => exact Except.error.inj h ▸ .empty hc
    case isFalse => exact absurd h (by simp)
  case h_3 =>
    split at h
    case isTrue hc => exact fault_of_close h rfl hc
    case isFalse => exact absurd h (by simp)
  case h_4 => exact absurd h (by simp)
  case h_5 =>
    split at h
    · exact absurd h (by simp)
    · split at h
      case isTrue hc => exact fault_of_close h rfl hc
      case isFalse => exact absurd h (by simp)
  case h_6 item start hplace => exact fault_of_hyphen hplace hstep
  case h_7 lo start escapeStart hplace => exact fault_of_upperEscape hplace hstep

end OpenClass

namespace Reader

variable {s s' : Reader} {c : Char} {cs ds : List Char} {e : SyntaxError}

/-- What can go wrong with a closing parenthesis. -/
theorem fault_of_closeGroup (hplace : s.place = .atom) (h : s.closeGroup = .error e) :
    s.Fault ')' e := by
  unfold closeGroup at h
  split at h
  case h_1 start around outer houter hitems =>
    split at h
    case isTrue hbranches =>
      obtain rfl := Except.error.inj h
      exact .emptyGroup hplace rfl houter hitems (List.isEmpty_iff.1 hbranches)
    case isFalse =>
      obtain rfl := Except.error.inj h
      exact .emptyAlternative hplace (.inr rfl) hitems
  case h_2 houter hitems =>
    obtain rfl := Except.error.inj h
    exact .emptyAlternative hplace (.inr rfl) hitems
  case h_3 item items houter hitems =>
    obtain rfl := Except.error.inj h
    exact .unmatchedParen hplace rfl houter (hitems ▸ List.cons_ne_nil item items)
  case h_4 => exact absurd h (by simp)

/-- What can go wrong with a bar. -/
theorem fault_of_nextBranch (hplace : s.place = .atom) (h : s.nextBranch = .error e) :
    s.Fault '|' e := by
  unfold nextBranch at h
  split at h
  case isTrue hitems =>
    obtain rfl := Except.error.inj h
    exact .emptyAlternative hplace (.inl rfl) (List.isEmpty_iff.1 hitems)
  case isFalse => exact absurd h (by simp)

/-- What can go wrong with an operator. -/
theorem fault_of_applyRepetition {times : Repetition} (hplace : s.place = .atom)
    (hc : Operator c times) (h : s.applyRepetition times c = .error e) : s.Fault c e := by
  unfold applyRepetition at h
  split at h
  case h_1 hitems =>
    obtain rfl := Except.error.inj h
    exact .nothingToRepeat hplace hc hitems
  case h_2 => exact absurd h (by simp)

/-- What can go wrong where an atom may stand. -/
theorem fault_of_stepAtom (hplace : s.place = .atom) (h : s.stepAtom c = .error e) :
    s.Fault c e := by
  unfold stepAtom at h
  split at h
  case h_1 => exact fault_of_nextBranch hplace h
  case h_3 => exact fault_of_closeGroup hplace h
  case h_4 => exact fault_of_applyRepetition hplace .star h
  case h_5 => exact fault_of_applyRepetition hplace .plus h
  case h_6 => exact fault_of_applyRepetition hplace .question h
  all_goals exact absurd h (by simp)

/-- A character is at fault in these ways only. -/
theorem fault_of_step (h : s.step c = .error e) : s.Fault c e := by
  unfold step at h
  split at h
  case h_1 hplace => exact fault_of_stepAtom hplace h
  case h_2 => exact absurd h (by simp)
  case h_3 start name hplace =>
    simp only [stepReference] at h
    split at h
    case isTrue hc =>
      split at h
      case isTrue => exact absurd h (by simp)
      case isFalse hname =>
        obtain rfl := Except.error.inj h
        exact .invalidReference hplace hc (Bool.eq_false_iff.2 hname)
    case isFalse => exact absurd h (by simp)
  case h_4 k hplace =>
    exact .inClass hplace (OpenClass.fault_of_step (eq_error_of_map_eq_error h))

/-! ## Faults at the end -/

/-- The ways in which a text ends too early. -/
inductive EndFault (s : Reader) : SyntaxError → Prop
  | emptyAlternative (hplace : s.place = .atom) (hitems : s.level.items = []) :
      EndFault s (.emptyAlternative s.offset)
  | unclosedGroup {start : Nat} {around : Level} {outer : List (Nat × Level)}
      (houter : s.outer = (start, around) :: outer) : EndFault s (.unclosedGroup start)
  | trailingEscape (hplace : s.place = .escape ∨ ∃ k, s.place = .inClass k ∧
      ((∃ start, k.place = .escape start) ∨
        ∃ lo start escapeStart, k.place = .upperEscape lo start escapeStart)) :
      EndFault s .trailingEscape
  | unterminatedReference {start : Nat} {name : List Char}
      (hplace : s.place = .reference start name) : EndFault s (.unterminatedReference start)
  | unterminatedClass {k : OpenClass} (hplace : s.place = .inClass k) :
      EndFault s (.unterminatedClass k.start)

/-- What can go wrong at the end of the text. -/
theorem endFault_of_finish (h : s.finish = .error e) : s.EndFault e := by
  unfold finish at h
  split at h
  case h_1 hplace =>
    unfold finishAtom at h
    split at h
    case isTrue hitems =>
      obtain rfl := Except.error.inj h
      exact .emptyAlternative hplace (List.isEmpty_iff.1 hitems)
    case isFalse =>
      split at h
      case h_1 => exact absurd h (by simp)
      case h_2 start around outer houter =>
        obtain rfl := Except.error.inj h
        exact .unclosedGroup houter
  case h_2 hplace =>
    obtain rfl := Except.error.inj h
    exact .trailingEscape (.inl hplace)
  case h_3 start name hplace =>
    obtain rfl := Except.error.inj h
    exact .unterminatedReference hplace
  case h_4 k hplace =>
    obtain rfl := Except.error.inj h
    unfold OpenClass.atEnd
    split
    case h_1 start hk => exact .trailingEscape (.inr ⟨k, hplace, .inl ⟨start, hk⟩⟩)
    case h_2 lo start escapeStart hk =>
      exact .trailingEscape (.inr ⟨k, hplace, .inr ⟨lo, start, escapeStart, hk⟩⟩)
    case h_3 => exact .unterminatedClass hplace

/-- What is wrong at the end of a text is that it ends too early. -/
theorem EndFault.atEnd (h : s.EndFault e) : e.AtEnd s.offset := by
  cases h <;> trivial

/-! ## Texts with a fault -/

/-- A text that is faulty stays so with more behind it. -/
theorem run_append_of_error (h : s.run cs = .error e) : s.run (cs ++ ds) = .error e := by
  rw [run_append, h]
  rfl

/-- A faulty text is read without a fault up to some character, and that one is at fault. -/
theorem exists_of_run_eq_error (h : s.run cs = .error e) : ∃ before c rest s',
    cs = before ++ c :: rest ∧ s.run before = .ok s' ∧ s'.Fault c e := by
  induction cs generalizing s with
  | nil => exact absurd h (by simp [run, pure, Except.pure])
  | cons c cs ih =>
    rw [run_cons] at h
    cases hstep : s.step c with
    | error e' =>
      rw [hstep] at h
      obtain rfl := Except.error.inj h
      exact ⟨[], c, cs, s, rfl, rfl, fault_of_step hstep⟩
    | ok s₁ =>
      rw [hstep] at h
      obtain ⟨before, d, rest, s', rfl, hbefore, hd⟩ := ih h
      exact ⟨c :: before, d, rest, s', rfl, by rw [run_cons_of_step hstep, hbefore], hd⟩

/-- A closing parenthesis that closes nothing stands behind a complete pattern. -/
theorem finish_of_unmatchedParen {offset : Nat} (h : s.Fault c (.unmatchedParen offset)) :
    s.offset = offset ∧ ∃ r, s.finish = .ok r := by
  cases h with
  | unmatchedParen hplace _ houter hitems =>
    refine ⟨rfl, s.level.close, ?_⟩
    rw [finish, hplace]
    show s.finishAtom = _
    rw [finishAtom, houter, if_neg (by simpa using hitems)]
  | inClass _ h => cases h

end Reader

/-- Reading fails at a character or at the end of the text. -/
theorem exists_of_parseChars_eq_error {cs : List Char} {e : SyntaxError}
    (h : parseChars cs = .error e) :
    (Reader.start.run cs = .error e ∧ ∃ before c rest s, cs = before ++ c :: rest ∧
      Reader.start.run before = .ok s ∧ s.Fault c e) ∨
    ∃ s, Reader.start.run cs = .ok s ∧ s.EndFault e := by
  unfold parseChars at h
  cases hrun : Reader.start.run cs with
  | error e' =>
    rw [hrun] at h
    obtain rfl := Except.error.inj h
    exact .inl ⟨rfl, Reader.exists_of_run_eq_error hrun⟩
  | ok s =>
    rw [hrun] at h
    exact .inr ⟨s, rfl, Reader.endFault_of_finish h⟩

/-- If a pattern is faulty, but not because it ends too early, every text that begins with it has
the same fault. If its fault is a closing parenthesis that closes nothing, the text in front of that
is a pattern. -/
theorem early_faults_persist (pattern more : String) :
    (∀ e, parse pattern = .error e → ¬ e.AtEnd pattern.length →
      parse (pattern ++ more) = .error e) ∧
    ∀ offset, parse pattern = .error (.unmatchedParen offset) →
      ∃ r, parse (String.ofList (pattern.toList.take offset)) = .ok r := by
  constructor
  · intro e h hend
    -- a fault met while reading is met again; one at the end points there
    rcases exists_of_parseChars_eq_error h with ⟨hrun, -⟩ | ⟨s, hrun, hfault⟩
    · rw [parse, String.toList_append, parseChars, Reader.run_append_of_error hrun]
      rfl
    · have hoffset : s.offset = pattern.length :=
        (Reader.tracks_start.run hrun).offset.trans String.length_toList
      exact absurd (hoffset ▸ hfault.atEnd) hend
  · intro offset h
    rcases exists_of_parseChars_eq_error h with ⟨-, before, c, rest, s, htext, hrun, hfault⟩ | hend
    · obtain ⟨hoffset, r, hfinish⟩ := Reader.finish_of_unmatchedParen hfault
      -- the text before the bracket was read without a fault and ends a pattern
      have hlength : before.length = offset :=
        (Reader.tracks_start.run hrun).offset.symm.trans hoffset
      refine ⟨r, ?_⟩
      rw [htext, List.take_left' hlength, parse, String.toList_ofList, parseChars, hrun]
      exact hfinish
    · obtain ⟨s, -, hfault⟩ := hend
      exact absurd hfault.atEnd id

/-- A range that runs downwards is one whatever follows, and the parenthesis behind a group and
its own closing parenthesis comes behind a pattern. -/
theorem early_faults_persist_range :
    (let e := SyntaxError.reversedRange 'z' 'a' 2
     parse "x[z-a" = .error e ∧ ¬ e.AtEnd "x[z-a".length ∧ parse ("x[z-a" ++ "]*") = .error e) ∧
    parse "(a|b))c" = .error (.unmatchedParen 5) ∧
      ∃ r, parse (String.ofList ("(a|b))c".toList.take 5)) = .ok r := by
  have hrange : parse "x[z-a" = .error (.reversedRange 'z' 'a' 2) := rfl
  have hparen : parse "(a|b))c" = .error (.unmatchedParen 5) := rfl
  exact ⟨⟨hrange, id, (early_faults_persist "x[z-a" "]*").1 _ hrange id⟩, hparen,
    (early_faults_persist "(a|b))c" "").2 5 hparen⟩

end MaximalMunch.Regex
