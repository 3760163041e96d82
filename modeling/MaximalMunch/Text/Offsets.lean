/-!
# Byte offsets in text

Offsets into a text count the bytes of its UTF-8 encoding. An offset is a *boundary* if it lies
between two characters or at an end of the text. The functions here walk a text by such offsets.
-/

namespace MaximalMunch.Text

/-- The number of bytes of a text. -/
def byteLength (cs : List Char) : Nat :=
  cs.foldr (fun c n => c.utf8Size + n) 0

@[simp] theorem byteLength_nil : byteLength [] = 0 := rfl

@[simp] theorem byteLength_cons (c : Char) (cs : List Char) :
    byteLength (c :: cs) = c.utf8Size + byteLength cs := rfl

@[simp] theorem byteLength_append (cs ds : List Char) :
    byteLength (cs ++ ds) = byteLength cs + byteLength ds := by
  induction cs with
  | nil => simp
  | cons c cs ih => rw [List.cons_append, byteLength_cons, byteLength_cons, ih, Nat.add_assoc]

/-- The text from offset `n` on, nothing if `n` is no boundary. -/
def dropBytes? (n : Nat) : List Char → Option (List Char)
  | [] => if n = 0 then some [] else none
  | c :: cs =>
    if n = 0 then some (c :: cs)
    else if c.utf8Size ≤ n then dropBytes? (n - c.utf8Size) cs
    else none

/-- The characters that end at offset `n` or before. -/
def takeBytes (n : Nat) : List Char → List Char
  | [] => []
  | c :: cs => if c.utf8Size ≤ n then c :: takeBytes (n - c.utf8Size) cs else []

/-- The greatest boundary that is at most `n`. -/
def floorBoundary (n : Nat) (cs : List Char) : Nat :=
  byteLength (takeBytes n cs)

/-- The least boundary that is at least `n`; the end of the text if there is none. -/
def ceilBoundary (n : Nat) : List Char → Nat
  | [] => 0
  | c :: cs => if n = 0 then 0 else c.utf8Size + ceilBoundary (n - c.utf8Size) cs

end MaximalMunch.Text
