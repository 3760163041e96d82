import MaximalMunch.Ascending
import MaximalMunch.CharClass.Basic

/-!
# Atoms

The bounds of some spans cut the code points between the first and the last bound into *atoms*: no
span begins or ends inside an atom, so every span holds all or none of it, and one code point
decides for all of them. Atoms that fall into a gap between the spans are listed too.
-/

namespace MaximalMunch

namespace Span

/-- Where membership in some span may change: each first code point, and each one past a last
one. -/
def cuts (spans : List Span) : List Nat :=
  Ascending.ofList (spans.flatMap fun s => [s.lo.toNat, s.hi.toNat + 1])

/-- The spans from each cut up to the next. -/
def between : List Nat → List Span
  | a :: b :: rest => ⟨.ofNat a, .ofNat (b - 1)⟩ :: between (b :: rest)
  | _ => []

/-- The atoms of some spans, in increasing order. -/
def atoms (spans : List Span) : List Span :=
  between (cuts spans)

end Span

/-- The atoms of some classes: the coarsest consecutive spans of which every class is a union. -/
def CharClass.partition (classes : List CharClass) : List Span :=
  Span.atoms (classes.flatMap (·.spans))

end MaximalMunch
