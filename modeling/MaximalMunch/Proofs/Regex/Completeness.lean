import MaximalMunch.Proofs.Regex.Grammar

/-!
# What the grammar derives is read

A text that the grammar derives takes the reader from between two atoms to behind its tree, whatever
the reader has collected before (`Atom.run`, `Concat.run`, `Alternation.run`). So the reader gives
the tree of every text that has one (`parseChars_of_derives`).
-/

namespace MaximalMunch.Regex

namespace Reader

variable {s : Reader} {c : Char} {cs ds : List Char}

/-- A text is read character by character. -/
theorem run_cons : s.run (c :: cs) = s.step c >>= fun s' => s'.run cs := List.foldlM_cons

/-- A text is read piece by piece. -/
theorem run_append : s.run (cs ++ ds) = s.run cs >>= fun s' => s'.run ds := List.foldlM_append

/-- A text of one character is read in one step. -/
theorem run_singleton : s.run [c] = s.step c := by
  rw [run_cons]
  cases s.step c <;> rfl

/-- Reading goes on from the reader that a character leads to. -/
theorem run_cons_of_step {s' : Reader} (h : s.step c = .ok s') : s.run (c :: cs) = s'.run cs := by
  rw [run_cons, h]
  rfl

/-- Reading goes on from the reader that a text leads to. -/
theorem run_append_of_run {s' : Reader} (h : s.run cs = .ok s') :
    s.run (cs ++ ds) = s'.run ds := by
  rw [run_append, h]
  rfl

/-- The reader `n` characters later, between atoms of the same group. -/
def ahead (s : Reader) (n : Nat) (level : Level) : Reader := ⟨s.offset + n, s.outer, level, .atom⟩

/-- The reader in the class `k` at an offset. -/
def inClass (s : Reader) (offset : Nat) (k : OpenClass) : Reader :=
  ⟨offset, s.outer, s.level, .inClass k⟩

/-- The reader behind the class `k` whose closing bracket stands at an offset. -/
def behindClass (s : Reader) (offset : Nat) (k : OpenClass) : Except SyntaxError Reader :=
  k.close.map fun members => ⟨offset + 1, s.outer, s.level.push (.oneOf members), .atom⟩

/-- A step inside a class that goes on is a step of the reader. -/
theorem step_inClass {offset : Nat} {k k' : OpenClass} (h : k.step c offset = .ok (.inl k')) :
    (s.inClass offset k).step c = .ok (s.inClass (offset + 1) k') := by
  show (k.step c offset).map _ = _
  rw [h]
  rfl

/-- The bracket that closes a class takes the reader behind it. -/
theorem step_inClass_close {offset : Nat} {k k' : OpenClass}
    (h : k.step c offset = k'.close.map .inr) :
    (s.inClass offset k).step c = s.behindClass offset k' := by
  show (k.step c offset).map _ = _
  rw [h, behindClass]
  cases k'.close <;> rfl

end Reader

/-! ## Classes -/

namespace OpenClass

/-- The class may go on with this text up to its closing bracket: a first item is no bracket and no
caret, and behind an item there is no range. -/
def Ready (k : OpenClass) (text : List Char) : Prop :=
  match k.place with
  | .opened => text ≠ [] ∧ text.head? ≠ some '^'
  | .first => text ≠ []
  | .item => True
  | .after _ _ => ¬ MakesRange text
  | _ => False

variable {k : OpenClass} {c : Char} {text rest : List Char} {offset : Nat}

/-- A character that is no closing bracket starts an item, unless it is a hyphen behind one. -/
theorem Ready.step (h : k.Ready (c :: text)) (hc : c ≠ ']')
    (hafter : ∀ x start, k.place = .after x start → c ≠ '-') :
    k.step c offset = .ok (.inl (k.startItem c offset)) := by
  unfold Ready at h
  unfold OpenClass.step
  cases hplace : k.place with
  | opened =>
    rw [hplace] at h
    have hcaret : c ≠ '^' := fun heq => h.2 (heq ▸ rfl)
    simp only [if_neg hcaret, if_neg hc]
  | first => simp only [if_neg hc]
  | item => simp only [if_neg hc]
  | after x start =>
    simp only [if_neg (hafter x start hplace), if_neg hc]
  | escape | hyphen | upperEscape =>
    rw [hplace] at h
    exact h.elim

/-- The closing bracket may follow. -/
theorem Ready.step_close (h : k.Ready []) : k.step ']' offset = k.close.map .inr := by
  unfold Ready at h
  unfold OpenClass.step
  cases hplace : k.place with
  | opened =>
    rw [hplace] at h
    exact absurd rfl h.1
  | first =>
    rw [hplace] at h
    exact absurd rfl h
  | item | after => rfl
  | escape | hyphen | upperEscape =>
    rw [hplace] at h
    exact h.elim

end OpenClass

namespace ItemText

variable {s : Reader} {k : OpenClass} {text rest : List Char} {x : ClassItem} {offset : Nat}

/-- An item has a first character, which is no closing bracket. -/
theorem exists_eq_cons (h : ItemText text x) : ∃ c more, text = c :: more ∧ c ≠ ']' := by
  cases h with
  | @plain c hc => exact ⟨c, [], rfl, hc.2⟩
  | escaped c => exact ⟨'\\', [c], rfl, by decide⟩

/-- A hyphen that starts an item is one by itself. -/
theorem eq_of_hyphen {more : List Char} (h : ItemText ('-' :: more) x) :
    more = [] ∧ x = .char '-' := by
  cases h with
  | plain => exact ⟨rfl, rfl⟩

/-- Reading an item adds it to the class. -/
theorem run (h : ItemText text x)
    (hstart : ∀ c, text.head? = some c → k.step c offset = .ok (.inl (k.startItem c offset))) :
    (s.inClass offset k).run text =
      .ok (s.inClass (offset + text.length) (k.add x.members (.after x offset))) := by
  cases h with
  | @plain c hc =>
    have hitem : k.startItem c offset = k.add (.single c) (.after (.char c) offset) := if_neg hc.1
    rw [Reader.run_cons_of_step (Reader.step_inClass (hitem ▸ hstart c rfl))]
    rfl
  | escaped c =>
    have hitem : k.startItem '\\' offset = { k with place := .escape offset } := if_pos rfl
    rw [Reader.run_cons_of_step (Reader.step_inClass (hitem ▸ hstart '\\' rfl)),
      Reader.run_cons_of_step (Reader.step_inClass rfl)]
    rfl

/-- Reading the upper end of a range adds the range to the class. -/
theorem run_high {lo hi : Char} {start : Nat} (h : ItemText text (.char hi)) (hle : lo ≤ hi) :
    (s.inClass offset { k with place := .hyphen (.char lo) start }).run text =
      .ok (s.inClass (offset + text.length) (k.add (.range lo hi) .item)) := by
  have hrange : ∀ place, OpenClass.addRange { k with place } lo hi start =
      .ok (k.add (.range lo hi) .item) := fun place => if_neg (Char.not_lt.2 hle)
  generalize hx : ClassItem.char hi = x at h
  cases h with
  | @plain c hc =>
    obtain rfl := ClassItem.char.inj hx
    have hstep : OpenClass.step { k with place := .hyphen (.char lo) start } hi offset =
        .ok (.inl (k.add (.range lo hi) .item)) := by
      simp only [OpenClass.step, if_neg hc.2, if_neg hc.1, hrange]
      rfl
    rw [Reader.run_cons_of_step (Reader.step_inClass hstep)]
    rfl
  | escaped c =>
    -- the backslash is read first, and it decides nothing
    have hfirst : OpenClass.step { k with place := .hyphen (.char lo) start } '\\' offset =
        .ok (.inl { k with place := .upperEscape lo start offset }) := rfl
    have hsecond : OpenClass.step { k with place := .upperEscape lo start offset } c (offset + 1) =
        .ok (.inl (k.add (.range lo hi) .item)) := by
      simp only [OpenClass.step, ← hx, hrange]
      rfl
    rw [Reader.run_cons_of_step (Reader.step_inClass hfirst),
      Reader.run_cons_of_step (Reader.step_inClass hsecond)]
    rfl

end ItemText

/-- Reading the rest of a class up to its closing bracket adds what its parts have. -/
theorem ClassBody.run {text : List Char} {parts : List ClassPart} (h : ClassBody text parts) :
    ∀ {s : Reader} {offset : Nat} {k : OpenClass}, k.Ready text → ∃ m : CharClass,
      (∀ cp, m.contains cp = true ↔ k.members.contains cp = true ∨ ∃ p ∈ parts, p.Has cp) ∧
        (s.inClass offset k).run (text ++ [']']) =
          s.behindClass (offset + text.length) { k with members := m } := by
  induction h with
  | nil =>
    intro s offset k hready
    refine ⟨k.members, by simp, ?_⟩
    rw [List.nil_append, Reader.run_singleton]
    exact Reader.step_inClass_close hready.step_close
  | @item text rest x parts hx hrest h ih =>
    intro s offset k hready
    obtain ⟨c, more, rfl, hc⟩ := hx.exists_eq_cons
    by_cases hhyphen : ∃ y start, k.place = .after y start ∧ c = '-'
    · -- such a hyphen makes no range, so the closing bracket comes next
      obtain ⟨y, start, hplace, rfl⟩ := hhyphen
      obtain ⟨rfl, rfl⟩ := hx.eq_of_hyphen
      have hend : rest = [] := by
        rw [OpenClass.Ready, hplace] at hready
        cases rest with
        | nil => rfl
        | cons c rest => exact absurd ⟨c, rest, rfl⟩ hready
      subst hend
      obtain rfl := h.eq_nil rfl
      have hfirst : k.step '-' offset = .ok (.inl { k with place := .hyphen y start }) := by
        rw [OpenClass.step, hplace]
        rfl
      refine ⟨k.members.union (.single '-'), fun cp => ?_, ?_⟩
      · rw [CharClass.contains_union, CharClass.contains_single]
        simp [ClassPart.Has]
      · exact (Reader.run_cons_of_step (Reader.step_inClass hfirst)).trans
          (Reader.run_singleton.trans (Reader.step_inClass_close rfl))
    · have hstep : ∀ c', (c :: more).head? = some c' →
          k.step c' offset = .ok (.inl (k.startItem c' offset)) := fun c' hc' => by
        obtain rfl := Option.some.inj hc'
        exact hready.step hc fun y start hplace heq => hhyphen ⟨y, start, hplace, heq⟩
      obtain ⟨m, hm, hrun⟩ := @ih s (offset + (c :: more).length)
        (k.add x.members (.after x offset)) hrest
      refine ⟨m, fun cp => ?_, ?_⟩
      · rw [hm, OpenClass.add, CharClass.contains_union, or_assoc, ← has_item_iff, exists_has_cons]
      · rw [List.append_assoc, Reader.run_append_of_run (hx.run hstep), hrun, List.length_append,
          Nat.add_assoc]
        rfl
  | @range low high rest lo hi parts hlow hhigh hle h ih =>
    intro s offset k hready
    obtain ⟨c, more, rfl, hc⟩ := hlow.exists_eq_cons
    have hstep : ∀ c', (c :: more).head? = some c' →
        k.step c' offset = .ok (.inl (k.startItem c' offset)) := fun c' hc' => by
      obtain rfl := Option.some.inj hc'
      refine hready.step hc fun y start hplace heq => ?_
      -- a hyphen here would make a range with the item before it
      subst heq
      obtain ⟨rfl, -⟩ := hlow.eq_of_hyphen
      rw [OpenClass.Ready, hplace] at hready
      exact hready ⟨_, _, rfl⟩
    have hhyphen : (k.add (ClassItem.char lo).members (.after (.char lo) offset)).step '-'
        (offset + (c :: more).length) = .ok (.inl
          { k.add (ClassItem.char lo).members (.after (.char lo) offset) with
            place := .hyphen (.char lo) offset }) := rfl
    obtain ⟨m, hm, hrun⟩ := @ih s (offset + (c :: more).length + 1 + high.length)
      ((k.add (ClassItem.char lo).members (.after (.char lo) offset)).add (.range lo hi) .item)
      trivial
    refine ⟨m, fun cp => ?_, ?_⟩
    · -- the lower end is in the range
      rw [hm, OpenClass.add, OpenClass.add, CharClass.contains_union, CharClass.contains_union,
        ClassItem.members, CharClass.contains_single, CharClass.contains_range]
      have hlo : cp = lo.val → lo.val ≤ cp ∧ cp ≤ hi.val := fun h =>
        ⟨h ▸ UInt32.le_refl _, h ▸ hle⟩
      rw [@or_assoc (k.members.contains cp = true), or_iff_right_of_imp hlo, or_assoc,
        exists_has_cons]
      rfl
    · rw [List.append_assoc, Reader.run_append_of_run (hlow.run hstep)]
      rw [List.cons_append, List.append_assoc,
        Reader.run_cons_of_step (Reader.step_inClass hhyphen),
        Reader.run_append_of_run (hhigh.run_high hle), hrun]
      simp only [List.length_append, List.length_cons]
      have hoffset : offset + (more.length + 1) + 1 + high.length + rest.length =
          offset + (more.length + 1 + (high.length + rest.length + 1)) := by omega
      rw [hoffset]
      rfl

/-- A class closes with its set, unless that is empty. -/
theorem OpenClass.close_eq_ok_iff {k : OpenClass} {members : CharClass} :
    k.close = .ok members ↔ (if k.negated then k.members.negate else k.members) = members ∧
      ∃ cp, members.contains cp = true := by
  simp only [OpenClass.close]
  generalize (if k.negated then k.members.negate else k.members) = set
  split
  case isTrue hempty =>
    simp only [reduceCtorEq, false_iff]
    rintro ⟨rfl, hmember⟩
    exact CharClass.not_isEmpty_iff.2 hmember hempty
  case isFalse hempty =>
    rw [Except.ok.injEq, iff_self_and]
    rintro rfl
    exact CharClass.not_isEmpty_iff.1 hempty

/-- Behind a caret a class is read to the Unicode code points that no part has, and it is turned
down if there are none. -/
theorem ClassBody.run_negated {text : List Char} {parts : List ClassPart} (h : ClassBody text parts)
    (hne : text ≠ []) {s : Reader} {start offset : Nat} : ∃ k : CharClass,
      (∀ cp, k.contains cp = true ↔ cp ≤ maxChar ∧ ¬ ∃ p ∈ parts, p.Has cp) ∧
        (s.inClass offset ⟨start, false, .empty, .opened⟩).run ('^' :: (text ++ [']'])) =
          if k.isEmpty then .error (.emptyClass start)
          else .ok ⟨offset + (text.length + 1) + 1, s.outer, s.level.push (.oneOf k), .atom⟩ := by
  have hcaret : OpenClass.step ⟨start, false, .empty, .opened⟩ '^' offset =
      .ok (.inl ⟨start, true, .empty, .first⟩) := rfl
  obtain ⟨m, hm, hrun⟩ := @ClassBody.run _ _ h s (offset + 1) ⟨start, true, .empty, .first⟩ hne
  have hmiff : ∀ cp, m.contains cp = true ↔ ∃ p ∈ parts, p.Has cp := fun cp => by
    rw [hm, CharClass.contains_empty]
    simp
  -- the complement is taken within Unicode, so the members must lie there
  have hunicode : m.Unicode := CharClass.unicode_iff.2 fun cp hcp => by
    obtain ⟨p, hp, hhas⟩ := (hmiff cp).1 hcp
    exact h.le_maxChar hp hhas
  refine ⟨m.negate, fun cp => ?_, ?_⟩
  · rw [hunicode.contains_negate, hmiff]
  · have hclose : OpenClass.close ⟨start, true, m, .first⟩ =
        if m.negate.isEmpty then .error (.emptyClass start) else .ok m.negate := rfl
    rw [Reader.run_cons_of_step (Reader.step_inClass hcaret), hrun, Reader.behindClass, hclose,
      Nat.add_assoc offset 1, Nat.add_comm 1]
    cases m.negate.isEmpty <;> rfl

/-- From the opening bracket on a class is read to its set. -/
theorem ClassText.run {text : List Char} {members : CharClass} (h : ClassText text members)
    {s : Reader} {start offset : Nat} :
    (s.inClass offset ⟨start, false, .empty, .opened⟩).run (text ++ [']']) =
      .ok ⟨offset + text.length + 1, s.outer, s.level.push (.oneOf members), .atom⟩ := by
  cases h with
  | plain h hne hcaret hk =>
    obtain ⟨m, hm, hrun⟩ := @ClassBody.run _ _ h s offset ⟨start, false, .empty, .opened⟩
      ⟨hne, hcaret⟩
    -- classes with the same members are the same
    have hmembers : m = members := CharClass.ext_of_contains fun cp => by
      rw [hm, CharClass.contains_empty, hk]
      simp
    subst hmembers
    obtain ⟨cp, hcp⟩ := h.exists_has hne
    have hmember : ∃ cp, m.contains cp = true := ⟨cp, (hk cp).2 hcp⟩
    have hclose : OpenClass.close ⟨start, false, m, .opened⟩ = .ok m :=
      OpenClass.close_eq_ok_iff.2 ⟨rfl, hmember⟩
    rw [hrun, Reader.behindClass, hclose]
    rfl
  | @negated text parts _ h hne hk hmember =>
    obtain ⟨k, hset, hrun⟩ := @ClassBody.run_negated _ _ h hne s start offset
    obtain rfl : k = members := CharClass.ext_of_contains fun cp => (hset cp).trans (hk cp).symm
    rw [List.cons_append, hrun, if_neg (CharClass.not_isEmpty_iff.2 hmember)]
    rfl

/-! ## Patterns -/

section Patterns

variable {s : Reader}

/-- Between atoms a character that stands for itself is an atom. -/
theorem Reader.stepAtom_of_ordinary {c : Char} (hc : c ∉ specialChars) :
    s.stepAtom c = .ok (s.push (.literal c)) := by
  unfold Reader.stepAtom
  split
  case h_11 => rfl
  all_goals exact absurd (by decide) hc

/-- The characters of a reference are kept up to the closing brace. -/
theorem Reader.run_reference {name : List Char} (hname : ∀ c ∈ name, c ≠ '}') {start : Nat} :
    ∀ {offset : Nat} {found : List Char},
      Reader.run ⟨offset, s.outer, s.level, .reference start found⟩ name =
        .ok ⟨offset + name.length, s.outer, s.level, .reference start (name.reverse ++ found)⟩ := by
  induction name with
  | nil => intro offset found; rfl
  | cons c rest ih =>
    intro offset found
    obtain ⟨hc, hrest⟩ := List.forall_mem_cons.1 hname
    have hstep : Reader.step ⟨offset, s.outer, s.level, .reference start found⟩ c =
        .ok ⟨offset + 1, s.outer, s.level, .reference start (c :: found)⟩ := if_neg hc
    rw [Reader.run_cons_of_step hstep, ih hrest, List.length_cons, List.reverse_cons,
      List.append_assoc, Nat.add_assoc, Nat.add_comm 1]
    rfl

/-- No closing brace stands in a word. -/
theorem ne_brace_of_isWord {name : List Char} (h : Text.isWord name = true) :
    ∀ c ∈ name, c ≠ '}' := by
  rintro c hc rfl
  exact Text.notMem_of_isWord h (by decide) hc

/-- The current alternative of a level, and those that bars have ended. -/
def Level.all (l : Level) : List Regex := (sequence l.items.reverse :: l.branches).reverse

mutual

/-- Reading an atom adds its tree to the current alternative. -/
theorem Atom.run : ∀ {text : List Char} {r : Regex}, Atom text r → ∀ {s : Reader},
    s.place = .atom → s.run text = .ok (s.ahead text.length (s.level.push r))
  | _, _, .char hc, s, hs => by
    rw [Reader.run_singleton, Reader.step, hs]
    exact Reader.stepAtom_of_ordinary hc
  | _, _, .escape c, s, hs => by
    have hfirst : s.step '\\' = .ok (s.goto .escape) := by
      rw [Reader.step, hs]
      rfl
    rw [Reader.run_cons_of_step hfirst, Reader.run_singleton]
    rfl
  | _, _, .dot, s, hs => by
    rw [Reader.run_singleton, Reader.step, hs]
    rfl
  | _, _, @Atom.oneOf text k h, s, hs => by
    have hfirst : s.step '[' =
        .ok (s.inClass (s.offset + 1) ⟨s.offset, false, .empty, .opened⟩) := by
      rw [Reader.step, hs]
      rfl
    rw [Reader.run_cons_of_step hfirst, h.run, Nat.add_assoc s.offset, Nat.add_comm 1,
      Nat.add_assoc, Reader.ahead, List.length_cons, List.length_append, List.length_singleton]
  | _, _, @Atom.group text branches h, s, hs => by
    have hfirst : s.step '(' = .ok s.openGroup := by
      rw [Reader.step, hs]
      rfl
    -- the branches are read on a level of their own, which the parenthesis closes
    obtain ⟨level, hrun, hne, hbranches⟩ := Alternation.run h (s := s.openGroup) rfl rfl
    have hclose : (s.openGroup.ahead text.length level).step ')' =
        .ok ⟨s.offset + 1 + text.length + 1, s.outer,
          s.level.push (.group (choice branches)), .atom⟩ := by
      obtain ⟨item, items, hitems⟩ := List.exists_cons_of_ne_nil hne
      rw [← hbranches]
      show Reader.closeGroup _ = _
      unfold Reader.closeGroup
      simp only [Reader.ahead, hitems]
      rfl
    rw [Reader.run_cons_of_step hfirst, Reader.run_append_of_run hrun, Reader.run_singleton,
      hclose, Nat.add_assoc s.offset, Nat.add_comm 1, Nat.add_assoc, Reader.ahead,
      List.length_cons, List.length_append, List.length_singleton]
  | _, _, @Atom.reference name hname, s, hs => by
    have hfirst : s.step '{' = .ok ⟨s.offset + 1, s.outer, s.level, .reference s.offset []⟩ := by
      rw [Reader.step, hs]
      rfl
    -- the name has been collected in reverse
    have hlast : Reader.step ⟨s.offset + 1 + name.length, s.outer, s.level,
        .reference s.offset (name.reverse ++ [])⟩ '}' =
          .ok ⟨s.offset + 1 + name.length + 1, s.outer,
            s.level.push (.reference (String.ofList name)), .atom⟩ := by
      rw [List.append_nil]
      show (if Text.isWord name.reverse.reverse = true then _ else _) = _
      rw [List.reverse_reverse, if_pos hname]
      rfl
    rw [Reader.run_cons_of_step hfirst,
      Reader.run_append_of_run (Reader.run_reference (ne_brace_of_isWord hname)),
      Reader.run_singleton, hlast, Nat.add_assoc s.offset, Nat.add_comm 1, Nat.add_assoc,
      Reader.ahead, List.length_cons, List.length_append, List.length_singleton]

/-- Reading a repetition adds its tree to the current alternative. -/
theorem Repeated.run : ∀ {text : List Char} {r : Regex}, Repeated text r → ∀ {s : Reader},
    s.place = .atom → s.run text = .ok (s.ahead text.length (s.level.push r))
  | _, _, .atom h, s, hs => Atom.run h hs
  | _, _, .operator h hc, s, hs => by
    rw [Reader.run_append_of_run (Repeated.run h hs), Reader.run_singleton, List.length_append]
    cases hc <;> rfl

/-- Reading a concatenation adds its items to the current alternative. -/
theorem Concat.run : ∀ {text : List Char} {items : List Regex}, Concat text items →
    ∀ {s : Reader}, s.place = .atom → s.run text =
      .ok (s.ahead text.length ⟨s.level.branches, items.reverse ++ s.level.items⟩)
  | _, _, .single h, s, hs => Repeated.run h hs
  | _, _, .snoc h hr, s, hs => by
    rw [Reader.run_append_of_run (Concat.run h hs), Repeated.run hr rfl]
    simp [Reader.ahead, Level.push, Nat.add_assoc]

/-- Reading an alternation from its start gives a level that closes with its branches. -/
theorem Alternation.run : ∀ {text : List Char} {branches : List Regex}, Alternation text branches →
    ∀ {s : Reader}, s.place = .atom → s.level = .start → ∃ level,
      s.run text = .ok (s.ahead text.length level) ∧ level.items ≠ [] ∧ level.all = branches
  | _, _, .single h, s, hs, hlevel => by
    refine ⟨_, Concat.run h hs, ?_, ?_⟩
    · simpa [hlevel, Level.start] using h.ne_nil
    · simp [hlevel, Level.start, Level.all]
  | _, _, @Alternation.snoc text more branches items h hitems, s, hs, hlevel => by
    obtain ⟨level, hrun, hne, hbranches⟩ := Alternation.run h hs hlevel
    have hbar : (s.ahead text.length level).step '|' =
        .ok (s.ahead (text.length + 1) level.bar) := by
      show Reader.nextBranch _ = _
      rw [Reader.nextBranch, if_neg]
      · rfl
      · simpa [Reader.ahead] using hne
    refine ⟨⟨level.bar.branches, items.reverse⟩, ?_, by simpa using hitems.ne_nil, ?_⟩
    · rw [Reader.run_append_of_run hrun, Reader.run_cons_of_step hbar, Concat.run hitems rfl]
      simp [Reader.ahead, Level.bar, Nat.add_assoc, Nat.add_comm 1]
    · simp [Level.all, Level.bar, ← hbranches]

end

end Patterns

/-- Every text that has a tree is read to it. -/
theorem parseChars_of_derives {text : List Char} {r : Regex} (h : Derives text r) :
    parseChars text = .ok r := by
  obtain ⟨branches, h, rfl⟩ := h
  obtain ⟨level, hrun, hne, rfl⟩ := h.run (s := Reader.start) rfl rfl
  rw [parseChars, hrun]
  show Reader.finishAtom _ = _
  rw [Reader.finishAtom, if_neg (by simpa [Reader.ahead] using hne)]
  rfl

/-- An atom with the operators behind it is read to its tree. -/
theorem parseChars_of_repeated {text : List Char} {r : Regex} (h : Repeated text r) :
    parseChars text = .ok r :=
  parseChars_of_derives ⟨_, .single (.single h), rfl⟩

/-- The range from the first to the last digit is the class of the digits. -/
theorem parse_digits : parse "[0-9]" = .ok (.oneOf .digit) :=
  parseChars_of_repeated (.atom (.oneOf classText_digits))

end MaximalMunch.Regex
