import MaximalMunch.Scan.Automaton
import MaximalMunch.Scan.Position
import MaximalMunch.Text.Quoted

/-!
# Scanning

A text is cut into the longest matches of an automaton, one after the other. Where nothing matches,
the character at hand is reported as an error and scanning goes on behind it. `Automaton.item?` cuts
off one piece, `Automaton.nextItem` the next piece that is not to be skipped, and `Automaton.scan`
all of them.
-/

namespace MaximalMunch

/-- A piece of a text that matches a token. -/
structure Token where
  name : String
  lexeme : String
  /-- Where the piece begins. -/
  position : Position
deriving DecidableEq, Repr

/-- No token matches at a place. -/
structure ScanError where
  position : Position
  /-- The character at that place. -/
  found : Char
deriving DecidableEq, Repr

/-- The error in words. -/
def ScanError.message (e : ScanError) : String :=
  let found := Text.quoteChar e.found
  s!"no token matches {found} at line {e.position.line}, column {e.position.column} "
    ++ s!"(offset {e.position.offset})"

/-- What one piece of a text is. -/
abbrev ScanItem := Except ScanError Token

/-- A place in a text and the text from there on. -/
structure Cursor where
  position : Position
  rest : List Char
deriving DecidableEq

/-- The beginning of a text. -/
def Cursor.ofText (text : String) : Cursor :=
  ⟨.start, text.toList⟩

namespace Automaton

variable {σ : Type}

/-- The piece at the cursor and the cursor behind it, nothing at the end of the text. -/
def item? (A : Automaton σ) (k : Cursor) : Option (ScanItem × Cursor) :=
  match k.rest with
  | [] => none
  | c :: rest =>
    match A.longestPrefix k.rest with
    | some (n, name) =>
      let lexeme := k.rest.take n
      some (.ok ⟨name, String.ofList lexeme, k.position⟩,
        ⟨k.position.advanceOver lexeme, k.rest.drop n⟩)
    | none => some (.error ⟨k.position, c⟩, ⟨k.position.advance c, rest⟩)

/-- Every piece takes at least one character. -/
theorem length_lt_of_item? {A : Automaton σ} {k k' : Cursor} {i : ScanItem}
    (h : A.item? k = some (i, k')) : k'.rest.length < k.rest.length := by
  unfold item? at h
  split at h
  · simp at h
  · rename_i c rest hrest
    split at h
    · rename_i n name hlongest
      have hpos := longestPrefix_pos hlongest
      simp only [Option.some.injEq, Prod.mk.injEq] at h
      rw [← h.2, List.length_drop, hrest, List.length_cons]
      omega
    · simp only [Option.some.injEq, Prod.mk.injEq] at h
      rw [← h.2, hrest]
      exact Nat.lt_succ_self rest.length

/-- The first piece from the cursor on that is an error or a token whose name is not in `skip`, and
the cursor behind it; at the end of the text nothing, and the end. -/
def nextItem (A : Automaton σ) (skip : List String) (k : Cursor) : Option ScanItem × Cursor :=
  match _h : A.item? k with
  | none => (none, k)
  | some (.error e, k') => (some (.error e), k')
  | some (.ok t, k') => if t.name ∈ skip then A.nextItem skip k' else (some (.ok t), k')
termination_by k.rest.length
decreasing_by exact length_lt_of_item? _h

/-- Skipping loses characters too, so every piece brings the end nearer. -/
theorem length_lt_of_nextItem {A : Automaton σ} {skip : List String} {k k' : Cursor} {i : ScanItem}
    (h : A.nextItem skip k = (some i, k')) : k'.rest.length < k.rest.length := by
  fun_induction A.nextItem skip k with
  | case1 => simp at h
  | case2 k e k'' hitem =>
    simp only [Prod.mk.injEq] at h
    exact h.2 ▸ length_lt_of_item? hitem
  | case3 k t k'' hitem _ ih => exact Nat.lt_trans (ih h) (length_lt_of_item? hitem)
  | case4 k t k'' hitem _ =>
    simp only [Prod.mk.injEq] at h
    exact h.2 ▸ length_lt_of_item? hitem

/-- The pieces of a text and where the scan ends. -/
structure Scan where
  /-- Each piece with the place behind it. -/
  items : Array (ScanItem × Position)
  /-- The cursor after the last piece. -/
  stop : Cursor

/-- Scans on from the cursor; `found` holds the pieces before it. -/
def scanFrom (A : Automaton σ) (skip : List String) (found : Array (ScanItem × Position))
    (k : Cursor) : Scan :=
  match _h : A.nextItem skip k with
  | (none, k') => ⟨found, k'⟩
  | (some i, k') => A.scanFrom skip (found.push (i, k'.position)) k'
termination_by k.rest.length
decreasing_by exact length_lt_of_nextItem _h

/-- The pieces of a text, without the tokens whose names are in `skip`. -/
def scan (A : Automaton σ) (skip : List String) (text : String) : Scan :=
  A.scanFrom skip #[] (.ofText text)

/-- All tokens of a text, or the first place where none matches. -/
def tokenize (A : Automaton σ) (text : String) : Except ScanError (List Token) :=
  (A.scan [] text).items.toList.mapM (·.1)

end Automaton

end MaximalMunch
