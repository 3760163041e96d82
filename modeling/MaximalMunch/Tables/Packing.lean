import MaximalMunch.CharClass.Atoms
import MaximalMunch.CharClass.Tagged
import MaximalMunch.Numbering
import MaximalMunch.Tables.Basic

/-!
# Packing

The tables of a `Dfa`. The edges of all states cut the code points into atoms; atoms on which every
state moves alike have the same column of the matrix and so share a class, numbered in the order of
first appearance after the column without moves.
-/

namespace MaximalMunch

/-- The part of a span above Latin-1. -/
def Span.Tagged.aboveLatin1? {α : Type} (s : Span.Tagged α) : Option (Span.Tagged α) :=
  if s.hi < 256 then none
  else some { s with lo := if s.lo < 256 then 256 else s.lo }

namespace Tables

/-- The entry for a state or a token, or for none. -/
def entryOf (i : Option Nat) : UInt32 :=
  match i with
  | some i => .ofNat i
  | none => noEntry

/-- Where each state moves on a code point. -/
def column (d : Dfa) (cp : UInt32) : Array UInt32 :=
  d.states.map fun s => entryOf (s.next cp)

/-- The atoms of all edges. -/
def atoms (d : Dfa) : List Span :=
  Span.atoms (d.states.toList.flatMap fun s => s.edges.map (·.toSpan))

/-- The distinct columns, the one without moves first, and each atom with its column's index. -/
def classify (d : Dfa) : Array (Array UInt32) × List (Span × Nat) :=
  Numbering.numberAll (fun a => column d a.lo) #[d.states.map fun _ => noEntry] (atoms d)

/-- The number of classes: how many columns there are, the one without moves included. -/
def classCount (d : Dfa) : Nat := (classify d).1.size

/-- The atoms on which some state moves, each tagged with its class. -/
def alive (d : Dfa) : List (Span.Tagged UInt32) :=
  (classify d).2.filterMap fun (a, i) =>
    if i = 0 then none else some { a with tag := .ofNat i }

/-- The class of a code point of Latin-1: that of the atom it is in, or 0. -/
def latin1Class (alive : List (Span.Tagged UInt32)) (cp : Fin 256) : UInt32 :=
  match alive.find? (·.contains (.ofNat cp.val)) with
  | some r => r.tag
  | none => 0

/-- The tables of an automaton. -/
def ofDfa (d : Dfa) : Tables :=
  let columns := (classify d).1
  let alive := alive d
  { latin1 := .ofFn (latin1Class alive)
    classRanges := ((Span.Tagged.joinAll (alive.filterMap (·.aboveLatin1?))).map fun r =>
      { r.toSpan with classId := r.tag : ClassRange }).toArray
    nClasses := .ofNat columns.size
    next := ((List.range d.size).flatMap fun s =>
      columns.toList.map fun column => column.getD s noEntry).toArray
    tokenOf := d.states.map fun s => entryOf s.token
    tokenNames := d.tokenNames
    start := .ofNat d.start }

end Tables

end MaximalMunch
