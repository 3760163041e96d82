import MaximalMunch.Tables.Basic
import MaximalMunch.Text.Hexadecimal

/-!
# Valid tables

Tables are valid if every index in them is in range and the class ranges are sorted. `Tables.fault?`
is the first thing that is wrong. The number of cells is compared as a machine word, with a product
that wraps around.
-/

namespace MaximalMunch.Tables

/-- What can be wrong with tables. -/
inductive Fault where
  /-- Not even class 0 exists. -/
  | noClasses
  /-- The matrix does not have a cell for each state and class. -/
  | cellCount (cells states classes : Nat)
  /-- The start is no state. -/
  | startOutOfRange (start states : Nat)
  /-- A cell of the matrix holds no state. -/
  | missingState (state : Nat)
  /-- The token of a state has no name. -/
  | unnamedToken (token : Nat)
  /-- A code point has no class. -/
  | classOutOfRange (classId classes : Nat)
  /-- A range is empty, or begins below 256, or ends after the last character. -/
  | badRange (lo hi : Nat)
  /-- A range does not begin after the one before it. -/
  | unsortedRanges
deriving DecidableEq, Repr

/-- A number in hexadecimal with its mark. -/
def hexMarked (n : Nat) : String :=
  "0x" ++ String.ofList (Text.hexUpper n)

/-- The fault in words. -/
def Fault.message : Fault → String
  | .noClasses => "n_classes must be at least 1"
  | .cellCount cells states classes =>
    s!"next has {cells} entries, expected {states} x {classes}"
  | .startOutOfRange start states => s!"start {start} out of range ({states} states)"
  | .missingState state => s!"transition to missing state {state}"
  | .unnamedToken token => s!"token index {token} has no name"
  | .classOutOfRange classId classes => s!"class {classId} out of range ({classes} classes)"
  | .badRange lo hi =>
    "class range " ++ hexMarked lo ++ "..=" ++ hexMarked hi
      ++ " must satisfy 0x100 <= lo <= hi <= " ++ hexMarked maxChar.toNat
  | .unsortedRanges => "class_ranges must be sorted and disjoint"

/-- The entry refers to nothing, or to one of the first `n` things. -/
def entryWithin (n : Nat) (w : UInt32) : Bool :=
  w = noEntry || w.toNat < n

/-- The span lies above Latin-1, has members and ends with the last character or before. -/
def isProperRange (r : ClassRange) : Bool :=
  256 ≤ r.lo && r.lo ≤ r.hi && r.hi ≤ maxChar

/-- Each range begins after the one before it ends. -/
def isSorted : List ClassRange → Bool
  | r :: s :: rest => r.hi < s.lo && isSorted (s :: rest)
  | _ => true

/-- The classes that stand in the tables, those of the first 256 code points first. -/
def allClasses (t : Tables) : List UInt32 :=
  t.latin1.toList ++ t.classRanges.toList.map (·.classId)

/-- The number of cells that there should be, one for each state and class. The product is that of
machine words, so it wraps around. -/
def cellCount (t : Tables) : UInt64 :=
  UInt64.ofNat t.nStates * t.nClasses.toUInt64

/-- The first thing that is wrong with the tables, if anything is. -/
def fault? (t : Tables) : Option Fault :=
  let classes := t.nClasses.toNat
  if classes = 0 then some .noClasses
  else if UInt64.ofNat t.next.size ≠ t.cellCount then
    some (.cellCount t.next.size t.nStates classes)
  else if t.nStates ≤ t.start.toNat then some (.startOutOfRange t.start.toNat t.nStates)
  else
    ((t.next.toList.find? (!entryWithin t.nStates ·)).map fun w => .missingState w.toNat)
    <|> ((t.tokenOf.toList.find? (!entryWithin t.tokenNames.size ·)).map fun w =>
      .unnamedToken w.toNat)
    <|> ((t.allClasses.find? (classes ≤ ·.toNat)).map fun k => .classOutOfRange k.toNat classes)
    <|> ((t.classRanges.toList.find? (!isProperRange ·)).map fun r =>
      .badRange r.lo.toNat r.hi.toNat)
    <|> (if isSorted t.classRanges.toList then none else some .unsortedRanges)

/-- The tables themselves if they are valid, otherwise the first fault. -/
def validate (t : Tables) : Except Fault Tables :=
  match t.fault? with
  | some f => .error f
  | none => .ok t

end MaximalMunch.Tables
