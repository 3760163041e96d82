import MaximalMunch.Proofs.Regex.Completeness

/-!
# Reading by descent

The grammar of patterns can also be read rule by rule: each rule takes what it needs off the text
and hands the rest to the next one, and a hyphen in a class is told apart by the two characters
ahead. Written this way, two places need a branch for a text that ends too early although something
was to follow: where an atom begins, and behind the hyphen of a range. `Fault` keeps these branches,
and that of a rule without fuel, apart from the errors of patterns.

Reading by descent gives what `Regex.parseChars` gives for every text, and takes none of these
branches (`pattern_eq`). The proof follows the rules: what a rule makes of the text ahead is
compared with what the reader makes of it (`Agrees`), for references, classes, atoms and, by
induction on the fuel, for alternatives and alternations.
-/

namespace MaximalMunch.Regex.Descent

/-- Why reading by descent fails. -/
inductive Fault where
  /-- The text is no pattern. -/
  | malformed (e : SyntaxError)
  /-- The text ends where an atom is to begin. -/
  | noAtom
  /-- The text ends behind the hyphen of a range. -/
  | noUpperEnd
  /-- The fuel is used up. -/
  | noFuel

/-- The text still to be read, and the number of characters before it. -/
structure Ahead where
  offset : Nat
  text : List Char

/-- What a rule makes of the text ahead. -/
abbrev Reading := Except Fault

/-- The text is no pattern. -/
def fail {α : Type} (e : SyntaxError) : Reading α := .error (.malformed e)

/-! ## Classes, escapes and references -/

/-- Reads what follows a backslash. -/
def escape (a : Ahead) : Reading (ClassItem × Ahead) :=
  match a.text with
  | [] => fail .trailingEscape
  | c :: rest => pure (escapeItem c, ⟨a.offset + 1, rest⟩)

/-- Behind a backslash any character makes an escape. -/
theorem escape_cons (offset : Nat) (c : Char) (rest : List Char) :
    escape ⟨offset, c :: rest⟩ = pure (escapeItem c, ⟨offset + 1, rest⟩) := rfl

/-- Reads an item of a class, which begins with the character `c`. -/
def item (c : Char) (a : Ahead) : Reading (ClassItem × Ahead) :=
  if c = '\\' then escape a else pure (.char c, a)

/-- A hyphen is next, and neither the closing bracket nor the end of the text comes behind it. -/
def rangeAhead : List Char → Bool
  | '-' :: c :: _ => c ≠ ']'
  | _ => false

/-- Reads the upper end of a range. -/
def upperEnd (a : Ahead) : Reading (Char × Ahead) :=
  match a.text with
  | [] => .error .noUpperEnd
  | c :: rest => do
    let (x, a') ← item c ⟨a.offset + 1, rest⟩
    match x with
    | .char hi => pure (hi, a')
    | .shorthand _ => fail (.invalidRangeEndpoint a.offset)

/-- Reads a class opened at `start` up to its closing bracket; `members` is what it has so far, and
`first` says that no item has been read. -/
def classItems (start : Nat) : Nat → Bool → CharClass → Ahead → Reading (CharClass × Ahead)
  | 0, _, _, _ => .error .noFuel
  | fuel + 1, first, members, a =>
    match a.text with
    | [] => fail (.unterminatedClass start)
    | c :: rest =>
      if c = ']' then
        if first then fail (.emptyClass start) else pure (members, ⟨a.offset + 1, rest⟩)
      else do
        let (x, a') ← item c ⟨a.offset + 1, rest⟩
        if rangeAhead a'.text then
          match x with
          | .shorthand _ => fail (.invalidRangeEndpoint a.offset)
          | .char lo => do
            let (hi, a'') ← upperEnd ⟨a'.offset + 1, a'.text.tail⟩
            if hi < lo then fail (.reversedRange lo hi a.offset)
            else classItems start fuel false (members.union (.range lo hi)) a''
        else classItems start fuel false (members.union x.members) a'

/-- Reads the items of a class opened at `start`, which may be negated. -/
def classSet (start : Nat) (negated : Bool) (a : Ahead) : Reading (Regex × Ahead) := do
  let (members, a) ← classItems start (a.text.length + 1) true .empty a
  let members := if negated then members.negate else members
  if members.isEmpty then fail (.emptyClass start) else pure (.oneOf members, a)

/-- Reads a class opened at `start`. -/
def oneOf (start : Nat) (a : Ahead) : Reading (Regex × Ahead) :=
  match a.text with
  | '^' :: rest => classSet start true ⟨a.offset + 1, rest⟩
  | _ => classSet start false a

/-- Reads a reference opened at `start`, after the characters `name`, the latest first. -/
def reference (start : Nat) (name : List Char) (offset : Nat) : List Char → Reading (Regex × Ahead)
  | [] => fail (.unterminatedReference start)
  | c :: rest =>
    if c = '}' then
      if Text.isWord name.reverse then
        pure (.reference (String.ofList name.reverse), ⟨offset + 1, rest⟩)
      else fail (.invalidReference (String.ofList name.reverse) start)
    else reference start (c :: name) (offset + 1) rest

/-! ## Patterns -/

/-- The repetition that a character stands for. -/
def repetition? : Char → Option Repetition
  | '*' => some .zeroOrMore
  | '+' => some .oneOrMore
  | '?' => some .zeroOrOne
  | _ => none

/-- Reads the operators behind an atom. -/
def operators (r : Regex) (offset : Nat) : List Char → Regex × Ahead
  | [] => (r, ⟨offset, []⟩)
  | c :: rest =>
    match repetition? c with
    | some times => operators (.repeated times r) (offset + 1) rest
    | none => (r, ⟨offset, c :: rest⟩)

/-- An alternative ends here: at the end of the text, a bar or a closing parenthesis. -/
def endsAlternative : List Char → Bool
  | [] => true
  | c :: _ => c = '|' || c = ')'

/-- Reads a group opened at `start`; `inside` reads the alternation in it. -/
def group (inside : Ahead → Reading (Regex × Ahead)) (start : Nat) (a : Ahead) :
    Reading (Regex × Ahead) :=
  if a.text.head? = some ')' then fail (.emptyGroup start)
  else do
    let (inner, a) ← inside a
    match a.text with
    | ')' :: rest => pure (.group inner, ⟨a.offset + 1, rest⟩)
    | _ => fail (.unclosedGroup start)

/-- Reads an atom; `inside` reads the alternation in a group. -/
def atom (inside : Ahead → Reading (Regex × Ahead)) (a : Ahead) : Reading (Regex × Ahead) :=
  match a.text with
  | [] => .error .noAtom
  | c :: rest =>
    let next : Ahead := ⟨a.offset + 1, rest⟩
    match c with
    | '(' => group inside a.offset next
    | '*' | '+' | '?' => fail (.nothingToRepeat c a.offset)
    | '[' => oneOf a.offset next
    | '{' => reference a.offset [] next.offset rest
    | '.' => pure (.oneOf .anyButNewline, next)
    | '\\' => do
      let (x, a') ← escape next
      pure (x.node, a')
    | c => pure (.literal c, next)

mutual

/-- Reads an alternation, after the alternatives `found`, the latest first. -/
def alternation : Nat → List Regex → Ahead → Reading (Regex × Ahead)
  | 0, _, _ => .error .noFuel
  | fuel + 1, found, a => do
    let (branch, a) ← concat fuel [] a
    match a.text with
    | '|' :: rest => alternation fuel (branch :: found) ⟨a.offset + 1, rest⟩
    | _ => pure (choice (branch :: found).reverse, a)

/-- Reads an alternative, after the items `found`, the latest first. -/
def concat : Nat → List Regex → Ahead → Reading (Regex × Ahead)
  | 0, _, _ => .error .noFuel
  | fuel + 1, found, a =>
    if endsAlternative a.text then
      if found.isEmpty then fail (.emptyAlternative a.offset)
      else pure (sequence found.reverse, a)
    else do
      let (r, a) ← atom (alternation fuel []) a
      let (r, a) := operators r a.offset a.text
      concat fuel (r :: found) a

end

/-- Reads a pattern. Every character costs at most the fuel of an alternation and an alternative. -/
def pattern (text : List Char) : Reading Regex := do
  let (r, a) ← alternation (2 * text.length + 2) [] ⟨0, text⟩
  match a.text with
  | [] => pure r
  | _ :: _ => fail (.unmatchedParen a.offset)

/-! ## Two ways of reading -/

/-- What a reader makes of the rest of a text. -/
def readOn (s : Reader) (cs : List Char) : Except SyntaxError Regex := s.run cs >>= Reader.finish

/-- Reading by descent succeeds with something of which `on` holds, or it fails with the error that
is the outcome `whole` of the reader. -/
def Agrees {α : Type} (d : Reading α) (whole : Except SyntaxError Regex) (on : α → Prop) : Prop :=
  (∃ x, d = pure x ∧ on x) ∨ ∃ e, d = fail e ∧ whole = .error e

section Agrees

variable {α β : Type} {d : Reading α} {f : α → Reading β} {whole : Except SyntaxError Regex}
  {on : α → Prop} {on' : β → Prop} {x : α} {e : SyntaxError}

/-- A result agrees with the reader if it is as the rest of the reading needs it. -/
theorem agrees_pure (h : on x) : Agrees (pure x) whole on := .inl ⟨x, rfl, h⟩

/-- An error agrees with the reader if the whole reading fails with it. -/
theorem agrees_fail (h : whole = .error e) : Agrees (fail e) whole on := .inr ⟨e, rfl, h⟩

/-- A descent that goes on agrees with the reader if both of its parts do. -/
theorem Agrees.bind (h : Agrees d whole on) (hf : ∀ x, on x → Agrees (f x) whole on') :
    Agrees (d >>= f) whole on' := by
  rcases h with ⟨x, rfl, hx⟩ | ⟨e, rfl, he⟩
  · exact hf x hx
  · exact .inr ⟨e, rfl, he⟩

/-- What is known of the result may be weakened. -/
theorem Agrees.imp {on' : α → Prop} (h : Agrees d whole on) (himp : ∀ x, on x → on' x) :
    Agrees d whole on' := by
  rcases h with ⟨x, hd, hx⟩ | hfail
  · exact .inl ⟨x, hd, himp x hx⟩
  · exact .inr hfail

end Agrees

section Reader

variable {s s' : Reader} {c : Char} {cs : List Char} {e : SyntaxError}

/-- A step of the reader is the beginning of the reading that is left. -/
theorem readOn_cons (h : s.step c = .ok s') : readOn s (c :: cs) = readOn s' cs := by
  rw [readOn, Reader.run_cons_of_step h]
  rfl

/-- If a step of the reader fails, so does the reading. -/
theorem readOn_cons_of_error (h : s.step c = .error e) : readOn s (c :: cs) = .error e := by
  rw [readOn, Reader.run_cons, h]
  rfl

end Reader

/-- Behind an atom that has been read by descent, less than `n` characters are left, and the reader
goes on with the atom as the latest item. -/
def Behind (s : Reader) (n : Nat) (whole : Except SyntaxError Regex) (x : Regex × Ahead) : Prop :=
  x.2.text.length < n ∧
    whole = readOn ⟨x.2.offset, s.outer, s.level.push x.1, .atom⟩ x.2.text

/-! ## References -/

/-- A reference is read by descent as the reader reads it. -/
theorem reference_agrees {s : Reader} {start offset n : Nat} {name cs : List Char}
    {whole : Except SyntaxError Regex} (hn : cs.length ≤ n)
    (hwhole : whole = readOn ⟨offset, s.outer, s.level, .reference start name⟩ cs) :
    Agrees (reference start name offset cs) whole (Behind s n whole) := by
  -- the name grows along the text
  induction cs generalizing offset name with
  | nil => exact agrees_fail hwhole
  | cons c rest ih =>
    rw [List.length_cons] at hn
    unfold reference
    split
    case isTrue hc =>
      split
      case isTrue hname =>
        refine agrees_pure ⟨hn, hwhole.trans (readOn_cons ?_)⟩
        simp [Reader.step, Reader.stepReference, hc, hname, Reader.push]
      case isFalse hname =>
        refine agrees_fail (hwhole.trans (readOn_cons_of_error ?_))
        simp [Reader.step, Reader.stepReference, hc, hname]
    case isFalse hc =>
      refine ih (Nat.le_of_succ_le hn) (hwhole.trans (readOn_cons ?_))
      simp [Reader.step, Reader.stepReference, hc, Reader.goto]

/-! ## Classes -/

section Classes

variable {s : Reader} {k : OpenClass} {c : Char} {rest : List Char} {offset start n : Nat}
  {whole : Except SyntaxError Regex}

/-- An item that has been read by descent is the latest item of the reader's class. -/
theorem item_agrees (hstep : k.step c offset = .ok (.inl (k.startItem c offset)))
    (hwhole : whole = readOn (s.inClass offset k) (c :: rest)) :
    Agrees (item c ⟨offset + 1, rest⟩) whole fun x => x.2.text.length ≤ rest.length ∧
      whole = readOn (s.inClass x.2.offset (k.add x.1.members (.after x.1 offset))) x.2.text := by
  rw [readOn_cons (Reader.step_inClass hstep)] at hwhole
  unfold OpenClass.startItem at hwhole
  unfold item
  split
  case isTrue hc =>
    rw [if_pos hc] at hwhole
    cases rest with
    | nil => exact agrees_fail hwhole
    | cons d rest =>
      refine agrees_pure ⟨Nat.le_succ _, hwhole.trans (readOn_cons (Reader.step_inClass ?_))⟩
      rfl
  case isFalse hc =>
    rw [if_neg hc] at hwhole
    exact agrees_pure ⟨Nat.le_refl _, hwhole⟩

/-- A fault in a class is a fault of the text. -/
theorem readOn_inClass_of_error {e : SyntaxError} (h : k.step c offset = .error e) :
    readOn (s.inClass offset k) (c :: rest) = .error e := by
  refine readOn_cons_of_error ?_
  show (k.step c offset).map _ = _
  rw [h]
  rfl

/-- The upper end of a range ends the range or is at fault. -/
theorem readOn_inClass_of_addRange {k' : OpenClass} {lo hi : Char}
    (h : k.step c offset = (k'.addRange lo hi start).map .inl) :
    readOn (s.inClass offset k) (c :: rest) =
      k'.addRange lo hi start >>= fun k'' => readOn (s.inClass (offset + 1) k'') rest := by
  cases hrange : k'.addRange lo hi start with
  | error e =>
    rw [hrange] at h
    exact readOn_inClass_of_error h
  | ok k'' =>
    rw [hrange] at h
    exact readOn_cons (Reader.step_inClass h)

/-- An upper end that has been read by descent bounds the reader's range. -/
theorem upperEnd_agrees {lo : Char} (hc : c ≠ ']')
    (hwhole : whole =
      readOn (s.inClass offset { k with place := .hyphen (.char lo) start }) (c :: rest)) :
    Agrees (upperEnd ⟨offset, c :: rest⟩) whole fun x => x.2.text.length ≤ rest.length ∧
      whole = k.addRange lo x.1 start >>= fun k' => readOn (s.inClass x.2.offset k') x.2.text := by
  unfold upperEnd item
  dsimp only
  split
  case isTrue hescape =>
    subst hescape
    have hstep : OpenClass.step { k with place := .hyphen (.char lo) start } '\\' offset =
        .ok (.inl { k with place := .upperEscape lo start offset }) := rfl
    rw [readOn_cons (Reader.step_inClass hstep)] at hwhole
    cases rest with
    | nil => exact agrees_fail hwhole
    | cons d rest =>
      -- the reader remembers the backslash; the descent looks one character ahead
      have hupper : OpenClass.step { k with place := .upperEscape lo start offset } d
          (offset + 1) = match escapeItem d with
            | .shorthand _ => .error (.invalidRangeEndpoint offset)
            | .char hi => (k.addRange lo hi start).map .inl := rfl
      rw [escape_cons, pure_bind]
      cases hd : escapeItem d with
      | shorthand =>
        rw [hd] at hupper
        exact agrees_fail (hwhole.trans (readOn_inClass_of_error hupper))
      | char hi =>
        rw [hd] at hupper
        exact agrees_pure ⟨Nat.le_succ _, hwhole.trans (readOn_inClass_of_addRange hupper)⟩
  case isFalse hplain =>
    have hstep : OpenClass.step { k with place := .hyphen (.char lo) start } c offset =
        (k.addRange lo c start).map .inl := by
      simp only [OpenClass.step, if_neg hc, if_neg hplain]
      rfl
    exact agrees_pure ⟨Nat.le_refl _, hwhole.trans (readOn_inClass_of_addRange hstep)⟩

/-- The lower end of a range is in the range. -/
theorem addRange_add_single {lo hi : Char} {place : ClassPlace} :
    (k.add (.single lo) place).addRange lo hi start = k.addRange lo hi start := by
  unfold OpenClass.addRange
  split
  case isTrue => rfl
  case isFalse hle =>
    have hmembers : (k.members.union (.single lo)).union (.range lo hi) =
        k.members.union (.range lo hi) := CharClass.ext_of_contains fun cp => by
      have hlo : cp = lo.val → lo.val ≤ cp ∧ cp ≤ hi.val := fun heq =>
        ⟨heq ▸ UInt32.le_refl _, heq ▸ Char.not_lt.1 hle⟩
      rw [CharClass.contains_union, CharClass.contains_union, CharClass.contains_union,
        CharClass.contains_single, CharClass.contains_range, or_assoc, or_iff_right_of_imp hlo]
    simp only [OpenClass.add, hmembers]

/-- A hyphen behind an item. -/
theorem step_hyphen {x : ClassItem} (hplace : k.place = .after x start) :
    k.step '-' offset = .ok (.inl { k with place := .hyphen x start }) := by
  rw [OpenClass.step, hplace]
  rfl

/-- If a range is ahead, the reader reads a hyphen and then the upper end. -/
theorem exists_of_rangeAhead {x : ClassItem} {text : List Char} (hplace : k.place = .after x start)
    (h : rangeAhead text = true) : ∃ c rest, text = '-' :: c :: rest ∧ c ≠ ']' ∧
      readOn (s.inClass offset k) text =
        readOn (s.inClass (offset + 1) { k with place := .hyphen x start }) (c :: rest) := by
  unfold rangeAhead at h
  split at h
  case h_1 c rest =>
    exact ⟨c, rest, rfl, by simpa using h, readOn_cons (Reader.step_inClass (step_hyphen hplace))⟩
  case h_2 => exact absurd h (by decide)

/-- A shorthand bounds no range. -/
theorem readOn_of_shorthand {members : CharClass} {text : List Char}
    (hplace : k.place = .after (.shorthand members) start) (h : rangeAhead text = true) :
    readOn (s.inClass offset k) text = .error (.invalidRangeEndpoint start) := by
  obtain ⟨c, rest, rfl, hc, hread⟩ := exists_of_rangeAhead hplace h
  refine hread.trans (readOn_inClass_of_error ?_)
  simp [OpenClass.step, hc]

/-- The range behind the item `lo` is read by descent as the reader reads it. -/
theorem rangeEnd_agrees {lo : Char} {text : List Char} (h : rangeAhead text = true)
    (hwhole : whole =
      readOn (s.inClass offset (k.add (.single lo) (.after (.char lo) start))) text) :
    Agrees (upperEnd ⟨offset + 1, text.tail⟩) whole fun x => x.2.text.length < text.length ∧
      whole = k.addRange lo x.1 start >>= fun k' => readOn (s.inClass x.2.offset k') x.2.text := by
  have hplace : (k.add (.single lo) (.after (.char lo) start)).place = .after (.char lo) start :=
    rfl
  -- a range is ahead only if a character follows the hyphen, so there is an upper end
  obtain ⟨c, rest, rfl, hc, hread⟩ := exists_of_rangeAhead hplace h
  refine (upperEnd_agrees hc (hwhole.trans hread)).imp fun x ⟨hlen, hx⟩ => ⟨?_, ?_⟩
  · rw [List.length_cons, List.length_cons]
    omega
  · rwa [addRange_add_single] at hx

/-- Where a class stands between two items when the text `text` is ahead; `first` says that it has
none yet. No range with the last item is ahead. -/
def Between (text : List Char) (first : Bool) : ClassPlace → Prop
  | .opened => first = true ∧ text.head? ≠ some '^'
  | .first => first = true
  | .item => first = false
  | .after _ _ => first = false ∧ rangeAhead text = false
  | _ => False

variable {first : Bool} {text : List Char}

/-- Between two items the text must not end. -/
theorem Between.atEnd (h : Between text first k.place) : k.atEnd = .unterminatedClass k.start := by
  unfold OpenClass.atEnd
  generalize k.place = place at h
  cases place with
  | opened | first | item | after => rfl
  | escape | hyphen | upperEscape => exact h.elim

/-- The closing bracket ends a class that has an item. -/
theorem Between.step_close (h : Between text first k.place) :
    k.step ']' offset =
      if first then .error (.emptyClass k.start) else k.close.map .inr := by
  unfold OpenClass.step
  generalize k.place = place at h
  cases place with
  | opened | after =>
    rw [h.1]
    rfl
  | first | item =>
    rw [show first = _ from h]
    rfl
  | escape | hyphen | upperEscape => exact h.elim

/-- Where a class stands between two items, a character may start an item. -/
theorem Between.ready (h : Between (c :: rest) first k.place) : k.Ready [c] := by
  unfold OpenClass.Ready
  generalize k.place = place at h
  cases place with
  | opened => exact ⟨List.cons_ne_nil _ _, h.2⟩
  | first => exact List.cons_ne_nil _ _
  | item => trivial
  | after => exact fun ⟨_, _, heq⟩ => List.cons_ne_nil _ _ (List.cons.inj heq).2.symm
  | escape | hyphen | upperEscape => exact h.elim

/-- A hyphen behind an item is an item itself if it makes no range. -/
theorem readOn_hyphen {x : ClassItem} (hplace : k.place = .after x start)
    (hrange : rangeAhead ('-' :: rest) = false) :
    readOn (s.inClass offset k) ('-' :: rest) =
        readOn (s.inClass (offset + 1) (k.add (.single '-') .item)) rest ∧
      rangeAhead rest = false := by
  rw [readOn_cons (Reader.step_inClass (step_hyphen hplace))]
  cases rest with
  | nil => exact ⟨rfl, rfl⟩
  | cons d rest =>
    obtain rfl : d = ']' := by simpa [rangeAhead] using hrange
    refine ⟨?_, rfl⟩
    have hhyphen : (s.inClass (offset + 1) { k with place := .hyphen x start }).step ']' =
        s.behindClass (offset + 1) (k.add (.single '-') .item) := Reader.step_inClass_close rfl
    have hitem : (s.inClass (offset + 1) (k.add (.single '-') .item)).step ']' =
        s.behindClass (offset + 1) (k.add (.single '-') .item) := Reader.step_inClass_close rfl
    rw [readOn, readOn, Reader.run_cons, Reader.run_cons, hhyphen, hitem]

/-- An item that has been read by descent is in the reader's class. If a range is ahead, it is the
latest item; otherwise the reader stands between two items. -/
theorem item_agrees_of_between (hplace : Between (c :: rest) first k.place) (hc : c ≠ ']')
    (hwhole : whole = readOn (s.inClass offset k) (c :: rest)) :
    Agrees (item c ⟨offset + 1, rest⟩) whole fun x => x.2.text.length ≤ rest.length ∧
      ∃ place, whole = readOn (s.inClass x.2.offset (k.add x.1.members place)) x.2.text ∧
        if rangeAhead x.2.text then place = .after x.1 offset
        else Between x.2.text false place := by
  by_cases hhyphen : ∃ x start, k.place = .after x start ∧ c = '-'
  · obtain ⟨x, start, hafter, rfl⟩ := hhyphen
    rw [hafter] at hplace
    obtain ⟨hread, hrest⟩ := readOn_hyphen hafter hplace.2
    refine agrees_pure ⟨Nat.le_refl _, .item, hwhole.trans hread, ?_⟩
    rw [hrest]
    rfl
  · have hstep : k.step c offset = .ok (.inl (k.startItem c offset)) :=
      hplace.ready.step hc fun x start hafter heq => hhyphen ⟨x, start, hafter, heq⟩
    refine (item_agrees hstep hwhole).imp fun x ⟨hlen, hx⟩ => ⟨hlen, .after x.1 offset, hx, ?_⟩
    split
    case isTrue => rfl
    case isFalse hrange => exact ⟨rfl, Bool.eq_false_iff.2 hrange⟩

/-- Behind a class that has been read by descent, the reader closes its class with these members. -/
def Closed (s : Reader) (k : OpenClass) (n : Nat) (whole : Except SyntaxError Regex)
    (x : CharClass × Ahead) : Prop :=
  x.2.text.length < n ∧ ∃ offset, x.2.offset = offset + 1 ∧
    whole = s.behindClass offset { k with members := x.1 } >>= fun s' => readOn s' x.2.text

/-- A class is read by descent up to its closing bracket as the reader reads it. -/
theorem classItems_agrees {a : Ahead} {fuel : Nat} (hfuel : a.text.length < fuel)
    (hn : a.text.length ≤ n) (hplace : Between a.text first k.place)
    (hwhole : whole = readOn (s.inClass a.offset k) a.text) :
    Agrees (classItems k.start fuel first k.members a) whole (Closed s k n whole) := by
  -- every item takes a character, so the fuel outlasts the text
  induction fuel generalizing a k first with
  | zero => exact absurd hfuel (Nat.not_lt_zero _)
  | succ fuel ih =>
    obtain ⟨offset, text⟩ := a
    unfold classItems
    cases text with
    | nil => exact agrees_fail (hwhole.trans (congrArg Except.error hplace.atEnd))
    | cons c rest =>
      rw [List.length_cons] at hfuel hn
      dsimp only
      split
      case isTrue hc =>
        subst hc
        cases first with
        | true => exact agrees_fail (hwhole.trans (readOn_inClass_of_error hplace.step_close))
        | false =>
          refine agrees_pure ⟨hn, offset, rfl, hwhole.trans ?_⟩
          rw [readOn, Reader.run_cons, Reader.step_inClass_close hplace.step_close, bind_assoc]
          rfl
      case isFalse hc =>
        refine (item_agrees_of_between hplace hc hwhole).bind ?_
        rintro ⟨x, offset', text⟩ ⟨hlen, place, hread, hrange⟩
        dsimp only at hlen hread hrange ⊢
        split at hrange
        case isTrue hahead =>
          subst hrange
          rw [if_pos hahead]
          cases x with
          | shorthand members => exact agrees_fail (hread.trans (readOn_of_shorthand rfl hahead))
          | char lo =>
            -- a hyphen follows, and there is an upper end behind it
            refine (rangeEnd_agrees hahead hread).bind ?_
            rintro ⟨hi, offset'', text'⟩ ⟨hlen', hread⟩
            dsimp only at hlen' hread ⊢
            rw [OpenClass.addRange] at hread
            split at hread
            case isTrue hlt =>
              rw [if_pos hlt]
              exact agrees_fail hread
            case isFalse hle =>
              rw [if_neg hle]
              exact ih (k := k.add (.range lo hi) .item) (a := ⟨offset'', text'⟩)
                (by dsimp only; omega) (by dsimp only; omega) rfl hread
        case isFalse hnone =>
          rw [if_neg hnone]
          exact ih (k := k.add x.members place) (a := ⟨offset', text⟩) (by dsimp only; omega)
            (by dsimp only; omega) hrange hread

/-- The set behind the bracket and the caret is what the reader makes of the class. -/
theorem classSet_agrees {a : Ahead} (hn : a.text.length ≤ n) (hmembers : k.members = .empty)
    (hplace : Between a.text true k.place)
    (hwhole : whole = readOn (s.inClass a.offset k) a.text) :
    Agrees (classSet k.start k.negated a) whole (Behind s n whole) := by
  unfold classSet
  rw [← hmembers]
  refine (classItems_agrees (Nat.lt_succ_self _) hn hplace hwhole).bind ?_
  rintro ⟨members, offset, text⟩ ⟨hlen, bracket, rfl, hread⟩
  dsimp only at hlen hread ⊢
  simp only [Reader.behindClass, OpenClass.close] at hread
  generalize (if k.negated then members.negate else members) = set at hread ⊢
  split at hread
  case isTrue hempty =>
    rw [if_pos hempty]
    exact agrees_fail hread
  case isFalse hempty =>
    rw [if_neg hempty]
    exact agrees_pure ⟨hlen, hread⟩

/-- A class is read by descent as the reader reads it. -/
theorem oneOf_agrees {a : Ahead} (hn : a.text.length ≤ n)
    (hwhole : whole = readOn (s.inClass a.offset ⟨start, false, .empty, .opened⟩) a.text) :
    Agrees (oneOf start a) whole (Behind s n whole) := by
  obtain ⟨offset, text⟩ := a
  unfold oneOf
  dsimp only at hn hwhole ⊢
  split
  case h_1 rest =>
    have hstep : OpenClass.step ⟨start, false, .empty, .opened⟩ '^' offset =
        .ok (.inl ⟨start, true, .empty, .first⟩) := rfl
    rw [readOn_cons (Reader.step_inClass hstep)] at hwhole
    exact classSet_agrees (k := ⟨start, true, .empty, .first⟩) (a := ⟨offset + 1, rest⟩)
      (Nat.le_of_succ_le hn) rfl rfl hwhole
  case h_2 hcaret =>
    refine classSet_agrees (k := ⟨start, false, .empty, .opened⟩) hn rfl ⟨rfl, ?_⟩ hwhole
    intro hhead
    obtain ⟨rest, rfl⟩ := List.head?_eq_some_iff.1 hhead
    exact hcaret rest rfl

end Classes

/-! ## Patterns -/

section Patterns

variable {outer : List (Nat × Level)} {branches items : List Regex} {c : Char}
  {rest text : List Char} {a : Ahead} {offset n : Nat} {whole : Except SyntaxError Regex}

/-- Between atoms a repetition operator applies to the latest item. -/
theorem stepAtom_of_repetition? {s : Reader} {times : Repetition} (h : repetition? c = some times) :
    s.stepAtom c = s.applyRepetition times c := by
  unfold repetition? at h
  split at h
  case h_4 => exact absurd h (by simp)
  all_goals
    obtain rfl := Option.some.inj h
    rfl

/-- The operators behind an item apply to it, and what follows them is no operator. -/
theorem operators_spec (r : Regex) (offset : Nat) (text : List Char) :
    (operators r offset text).2.text.length ≤ text.length ∧
      (∀ c ∈ (operators r offset text).2.text.head?, repetition? c = none) ∧
      readOn ⟨offset, outer, ⟨branches, r :: items⟩, .atom⟩ text =
        readOn ⟨(operators r offset text).2.offset, outer,
          ⟨branches, (operators r offset text).1 :: items⟩, .atom⟩
          (operators r offset text).2.text := by
  induction text generalizing r offset with
  | nil => exact ⟨Nat.le_refl _, by simp [operators], rfl⟩
  | cons c rest ih =>
    unfold operators
    split
    case h_1 times hc =>
      obtain ⟨hlen, hnext, hread⟩ := ih (.repeated times r) (offset + 1)
      refine ⟨Nat.le_succ_of_le hlen, hnext, (readOn_cons ?_).trans hread⟩
      exact stepAtom_of_repetition? hc
    case h_2 hc => exact ⟨Nat.le_refl _, by simpa using hc, rfl⟩

/-- Behind an alternation that has been read by descent, the text or the group ends, and the reader
has the alternatives of its level. -/
def BehindAlternation (outer : List (Nat × Level)) (n : Nat) (whole : Except SyntaxError Regex)
    (x : Regex × Ahead) : Prop :=
  x.2.text.length ≤ n ∧ (∀ c ∈ x.2.text.head?, c = ')') ∧
    ∃ level : Level, level.items ≠ [] ∧ level.close = x.1 ∧
      whole = readOn ⟨x.2.offset, outer, level, .atom⟩ x.2.text

/-- The alternation in a group is read by descent as the reader reads it, if less than `n`
characters are ahead. -/
def InsideAgrees (inside : Ahead → Reading (Regex × Ahead)) (n : Nat) : Prop :=
  ∀ {a : Ahead} {outer : List (Nat × Level)} {whole : Except SyntaxError Regex},
    a.text.length < n → a.text.head? ≠ some ')' →
      whole = readOn ⟨a.offset, outer, .start, .atom⟩ a.text →
        Agrees (inside a) whole (BehindAlternation outer a.text.length whole)

variable {inside : Ahead → Reading (Regex × Ahead)}

/-- A group is read by descent as the reader reads it. -/
theorem group_agrees {s : Reader} {start : Nat} (hinside : InsideAgrees inside n)
    (hn : a.text.length < n)
    (hwhole : whole = readOn ⟨a.offset, (start, s.level) :: s.outer, .start, .atom⟩ a.text) :
    Agrees (group inside start a) whole (Behind s n whole) := by
  unfold group
  split
  case isTrue hempty =>
    obtain ⟨rest, htext⟩ := List.head?_eq_some_iff.1 hempty
    rw [htext] at hwhole
    exact agrees_fail hwhole
  case isFalse hne =>
    refine (hinside hn hne hwhole).bind ?_
    rintro ⟨inner, offset, text⟩ ⟨hlen, hnext, level, hitems, rfl, hread⟩
    dsimp only at hlen hnext hread ⊢
    -- what was read inside is not empty, so the level can be closed
    obtain ⟨item, items, hlevel⟩ := List.exists_cons_of_ne_nil hitems
    cases text with
    | nil =>
      refine agrees_fail (hread.trans ?_)
      show Reader.finishAtom _ = _
      simp [Reader.finishAtom, hlevel]
    | cons c rest =>
      obtain rfl : c = ')' := hnext c rfl
      rw [List.length_cons] at hlen
      refine agrees_pure ⟨by dsimp only; omega, hread.trans (readOn_cons ?_)⟩
      show Reader.closeGroup _ = _
      simp [Reader.closeGroup, hlevel]

/-- A repetition operator at the beginning of an alternative is at fault. -/
theorem readOn_of_repetition? {s : Reader} {times : Repetition} (h : repetition? c = some times)
    (hoperator : s.level.items ≠ [] → ∀ d ∈ (c :: rest).head?, repetition? d = none) :
    readOn ⟨offset, s.outer, s.level, .atom⟩ (c :: rest) = .error (.nothingToRepeat c offset) := by
  have hitems : s.level.items = [] := Classical.byContradiction fun hne =>
    Option.some_ne_none times (h.symm.trans (hoperator hne c rfl))
  refine readOn_cons_of_error ((stepAtom_of_repetition? h).trans ?_)
  rw [Reader.applyRepetition]
  simp only [hitems]

/-- An atom is read by descent as the reader reads it. -/
theorem atom_agrees {s : Reader} (hinside : InsideAgrees inside n) (hn : a.text.length ≤ n)
    (hends : endsAlternative a.text = false)
    (hoperator : s.level.items ≠ [] → ∀ c ∈ a.text.head?, repetition? c = none)
    (hwhole : whole = readOn ⟨a.offset, s.outer, s.level, .atom⟩ a.text) :
    Agrees (atom inside a) whole (Behind s n whole) := by
  obtain ⟨offset, text⟩ := a
  unfold atom
  cases text with
  | nil =>
    -- an alternative ends with the text, so no atom is read there
    exact Bool.noConfusion hends
  | cons c rest =>
    have hrest : rest.length < n := hn
    dsimp only
    split
    case h_1 => exact group_agrees hinside hrest (hwhole.trans (readOn_cons rfl))
    case h_2 | h_3 | h_4 =>
      exact agrees_fail (hwhole.trans (readOn_of_repetition? rfl hoperator))
    case h_5 => exact oneOf_agrees (Nat.le_of_lt hrest) (hwhole.trans (readOn_cons rfl))
    case h_6 => exact reference_agrees (Nat.le_of_lt hrest) (hwhole.trans (readOn_cons rfl))
    case h_7 => exact agrees_pure ⟨hrest, hwhole.trans (readOn_cons rfl)⟩
    case h_8 =>
      have hread := hwhole.trans (readOn_cons rfl)
      cases rest with
      | nil => exact agrees_fail hread
      | cons d rest =>
        exact agrees_pure ⟨Nat.lt_of_succ_lt hrest, hread.trans (readOn_cons rfl)⟩
    case h_9 =>
      have hordinary : c ∉ specialChars := by simp_all [specialChars, endsAlternative]
      exact agrees_pure ⟨hrest, hwhole.trans (readOn_cons (Reader.stepAtom_of_ordinary hordinary))⟩

/-- An alternative without an item is at fault. Only the reader calls `()` an empty group at its
closing parenthesis; by descent that is decided where the group opens. -/
theorem readOn_of_endsAlternative (hends : endsAlternative text = true)
    (hopen : branches = [] → outer ≠ [] → text.head? ≠ some ')') :
    readOn ⟨offset, outer, ⟨branches, []⟩, .atom⟩ text = .error (.emptyAlternative offset) := by
  cases text with
  | nil => rfl
  | cons c rest =>
    have hc : c = '|' ∨ c = ')' := by simpa [endsAlternative] using hends
    rcases hc with rfl | rfl
    · exact readOn_cons_of_error rfl
    · refine readOn_cons_of_error ?_
      cases outer with
      | nil => rfl
      | cons =>
        cases branches with
        | nil => exact absurd rfl (hopen rfl (List.cons_ne_nil _ _))
        | cons => rfl

/-- Behind an alternative that has been read by descent, it ends, and the reader has its items. -/
def BehindConcat (outer : List (Nat × Level)) (branches : List Regex) (n : Nat)
    (whole : Except SyntaxError Regex) (x : Regex × Ahead) : Prop :=
  x.2.text.length ≤ n ∧ endsAlternative x.2.text = true ∧
    ∃ items, items ≠ [] ∧ sequence items.reverse = x.1 ∧
      whole = readOn ⟨x.2.offset, outer, ⟨branches, items⟩, .atom⟩ x.2.text

/-- Alternations are read by descent as the reader reads them, if the fuel is enough. -/
def AlternationsAgree (fuel : Nat) : Prop :=
  ∀ {a : Ahead} {outer : List (Nat × Level)} {branches : List Regex}
    {whole : Except SyntaxError Regex}, 2 * a.text.length + 2 ≤ fuel →
      (branches = [] → outer ≠ [] → a.text.head? ≠ some ')') →
      whole = readOn ⟨a.offset, outer, ⟨branches, []⟩, .atom⟩ a.text →
        Agrees (alternation fuel branches a) whole (BehindAlternation outer a.text.length whole)

/-- Alternatives are read by descent as the reader reads them, if the fuel is enough. -/
def ConcatsAgree (fuel : Nat) : Prop :=
  ∀ {a : Ahead} {outer : List (Nat × Level)} {branches items : List Regex}
    {whole : Except SyntaxError Regex}, 2 * a.text.length + 1 ≤ fuel →
      (items = [] → branches = [] → outer ≠ [] → a.text.head? ≠ some ')') →
      (items ≠ [] → ∀ c ∈ a.text.head?, repetition? c = none) →
      whole = readOn ⟨a.offset, outer, ⟨branches, items⟩, .atom⟩ a.text →
        Agrees (concat fuel items a) whole (BehindConcat outer branches a.text.length whole)

/-- An alternative is read atom by atom. -/
theorem concatsAgree_succ {fuel : Nat} (halt : AlternationsAgree fuel)
    (hconcat : ConcatsAgree fuel) : ConcatsAgree (fuel + 1) := by
  intro a outer branches items whole hfuel hopen hoperator hwhole
  unfold concat
  split
  case isTrue hends =>
    cases items with
    | nil => exact agrees_fail (hwhole.trans (readOn_of_endsAlternative hends (hopen rfl)))
    | cons => exact agrees_pure ⟨Nat.le_refl _, hends, _, List.cons_ne_nil _ _, rfl, hwhole⟩
  case isFalse hends =>
    have hinside : InsideAgrees (alternation fuel []) a.text.length := fun hlt hne hread =>
      halt (by omega) (fun _ _ => hne) hread
    refine (atom_agrees (s := ⟨0, outer, ⟨branches, items⟩, .atom⟩) hinside (Nat.le_refl _)
      (Bool.eq_false_iff.2 hends) hoperator hwhole).bind ?_
    rintro ⟨r, offset, text⟩ ⟨hlt, hread⟩
    obtain ⟨hle, hnext, hoperators⟩ := operators_spec r offset text
    dsimp only at hlt hread ⊢
    exact (hconcat (by omega) (fun h => absurd h (List.cons_ne_nil _ _)) (fun _ => hnext)
      (hread.trans hoperators)).imp fun x ⟨hlen, hx⟩ => ⟨by omega, hx⟩

/-- An alternation is read alternative by alternative. -/
theorem alternationsAgree_succ {fuel : Nat} (halt : AlternationsAgree fuel)
    (hconcat : ConcatsAgree fuel) : AlternationsAgree (fuel + 1) := by
  intro a outer branches whole hfuel hopen hwhole
  unfold alternation
  refine (hconcat (by omega) (fun _ => hopen) (fun h => absurd rfl h) hwhole).bind ?_
  rintro ⟨branch, offset, text⟩ ⟨hlen, hends, items, hitems, rfl, hread⟩
  dsimp only at hlen hends hread ⊢
  split
  case h_1 rest =>
    -- a bar closes the branch and the reader starts the next one
    have hbar : Reader.step ⟨offset, outer, ⟨branches, items⟩, .atom⟩ '|' =
        .ok ⟨offset + 1, outer, ⟨sequence items.reverse :: branches, []⟩, .atom⟩ := by
      show Reader.nextBranch _ = _
      rw [Reader.nextBranch, if_neg (by simpa using hitems)]
      rfl
    rw [List.length_cons] at hlen
    refine (halt (a := ⟨offset + 1, rest⟩) (by dsimp only; omega)
      (fun h => absurd h (List.cons_ne_nil _ _))
      (hread.trans (readOn_cons hbar))).imp fun x ⟨hle, hx⟩ => ⟨?_, hx⟩
    exact Nat.le_trans hle (Nat.le_of_lt hlen)
  case h_2 hbar =>
    refine agrees_pure ⟨hlen, fun c hc => ?_, _, hitems, rfl, hread⟩
    obtain ⟨rest, rfl⟩ := List.head?_eq_some_iff.1 hc
    have hc : c = '|' ∨ c = ')' := by simpa [endsAlternative] using hends
    exact hc.resolve_left fun heq => hbar rest (heq ▸ rfl)

/-- With enough fuel, reading by descent and the reader agree. -/
theorem agree_of_fuel (fuel : Nat) : AlternationsAgree fuel ∧ ConcatsAgree fuel := by
  induction fuel with
  | zero => exact ⟨fun h => absurd h (by omega), fun h => absurd h (by omega)⟩
  | succ fuel ih => exact ⟨alternationsAgree_succ ih.1 ih.2, concatsAgree_succ ih.1 ih.2⟩

end Patterns

/-- Reading by descent gives what the reader gives, for every text. No text ends where an atom is to
begin or behind the hyphen of a range, and there is fuel to the end. -/
theorem pattern_eq (text : List Char) : pattern text = (parseChars text).mapError .malformed := by
  have hagrees : Agrees (pattern text) (parseChars text) fun r => parseChars text = .ok r := by
    have halt : AlternationsAgree (2 * text.length + 2) := (agree_of_fuel _).1
    unfold pattern
    refine (halt (a := ⟨0, text⟩) (Nat.le_refl _) (fun _ h => absurd rfl h) rfl).bind ?_
    rintro ⟨r, offset, rest⟩ ⟨-, hnext, level, hitems, rfl, hread⟩
    dsimp only at hnext hread ⊢
    obtain ⟨item, items, hlevel⟩ := List.exists_cons_of_ne_nil hitems
    cases rest with
    | nil =>
      refine agrees_pure (hread.trans ?_)
      show Reader.finishAtom _ = _
      simp [Reader.finishAtom, hlevel]
    | cons c rest =>
      -- text is left over: a bracket that was never opened
      obtain rfl : c = ')' := hnext c rfl
      refine agrees_fail (hread.trans (readOn_cons_of_error ?_))
      show Reader.closeGroup _ = _
      simp [Reader.closeGroup, hlevel]
  rcases hagrees with ⟨r, hpattern, hread⟩ | ⟨e, hpattern, hread⟩
  · rw [hpattern, hread]
    rfl
  · rw [hpattern, hread]
    rfl

/-- Reading by descent fails only with the errors of patterns. -/
theorem pattern_ne_error {text : List Char} {fault : Fault} (h : ∀ e, fault ≠ .malformed e) :
    pattern text ≠ .error fault := by
  rw [pattern_eq]
  cases parseChars text with
  | ok => exact nofun
  | error e => exact fun heq => h e (Except.error.inj heq).symm

end MaximalMunch.Regex.Descent
