import MaximalMunch.Dfa.Basic
import MaximalMunch.Scan.Automaton

/-!
# Tables

A deterministic automaton in dense form. Code points that no state tells apart share a class, and a
matrix gives the next state for each state and class. Class 0 is the class of the code points on
which no state has a move. The classes of the first 256 code points are listed one by one, those of
the others by ranges.

Tables come from files too, so nothing is assumed of them here: every look-up says `none` where it
would leave the table, and a class is looked up by bisection whether or not the ranges are sorted.
-/

namespace MaximalMunch

/-- The entry of a table where there is no state or no token. -/
def noEntry : UInt32 := 0xFFFFFFFF

/-- The class of a span of code points. -/
structure ClassRange extends Span where
  classId : UInt32
deriving DecidableEq, Inhabited

/-- A deterministic automaton in dense form. -/
structure Tables where
  /-- The classes of the code points below 256. -/
  latin1 : Vector UInt32 256
  /-- The classes of the other code points; class 0 where there is no range. -/
  classRanges : Array ClassRange
  /-- The number of classes, class 0 included. -/
  nClasses : UInt32
  /-- The next state for each class, state after state. -/
  next : Array UInt32
  /-- The index of the token of each state. -/
  tokenOf : Array UInt32
  tokenNames : Array String
  start : UInt32
deriving DecidableEq

/-- The index in a table entry, if the entry holds one. -/
def entryIndex? (w : UInt32) : Option Nat :=
  if w = noEntry then none else some w.toNat

/-- Bisects the `size` ranges from index `base` on. It keeps the upper part whenever that part does
not begin above `cp`, and in sorted ranges ends at the last one that does not. -/
def bisect (ranges : Array ClassRange) (cp : UInt32) (base size : Nat) : Nat :=
  if size ≤ 1 then base
  else
    let middle := base + size / 2
    let base := if cp < (ranges.getD middle default).lo then base else middle
    bisect ranges cp base (size - size / 2)
termination_by size

namespace Tables

/-- The number of states. -/
def nStates (t : Tables) : Nat := t.tokenOf.size

/-- The class of a code point from 256 on. -/
def classInRanges (t : Tables) (cp : UInt32) : UInt32 :=
  match t.classRanges[bisect t.classRanges cp 0 t.classRanges.size]? with
  | some r => if r.contains cp then r.classId else 0
  | none => 0

/-- The class of a character. -/
def classOf (t : Tables) (c : Char) : UInt32 :=
  if h : c.toNat < 256 then t.latin1[c.toNat] else t.classInRanges c.val

/-- Where a character leads from a state. -/
def step (t : Tables) (state : Nat) (c : Char) : Option Nat := do
  entryIndex? (← t.next[state * t.nClasses.toNat + (t.classOf c).toNat]?)

/-- The name of the token that a match ending in a state reports. -/
def accepting (t : Tables) (state : Nat) : Option String := do
  t.tokenNames[← entryIndex? (← t.tokenOf[state]?)]?

/-- The automaton of the tables. -/
def automaton (t : Tables) : Automaton Nat where
  start := t.start.toNat
  next := t.step
  tokenOf := t.accepting

end Tables

end MaximalMunch
