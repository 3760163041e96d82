/-!
# Paths

The parts of a path between its slashes. Empty parts and dots say nothing, but for a dot that comes
first. `Path.parent?` and `Path.extension?` look at the last part that says something. All this goes
by the text of a path; what it leads to is a question for a file system.
-/

namespace MaximalMunch.Path

/-- The parts between slashes. -/
def parts (path : String) : List String :=
  (path.toList.splitOn '/').map String.ofList

/-- Drops the parts at the end that say nothing. The list is reversed: its head is the last part. -/
def dropSilent : List String → List String
  | [] => []
  | [part] => if part.isEmpty then [] else [part]
  | part :: rest => if part.isEmpty || part = "." then dropSilent rest else part :: rest

/-- The parts up to the last one that says something, the last first. -/
def significant (path : String) : List String :=
  dropSilent (parts path).reverse

/-- The path of the given parts, the last first. -/
def ofReversed (rooted : Bool) : List String → String
  | [] => if rooted then "/" else ""
  | reversed => String.intercalate "/" reversed.reverse

/-- The path of the directory that holds the last part: empty for the current directory, nothing for
a path without parts. -/
def parent? (path : String) : Option String :=
  match significant path with
  | [] => none
  | _ :: rest => some (ofReversed (path.startsWith "/") (dropSilent rest))

/-- What follows the last dot of the last part, unless that dot comes first. -/
def extension? (path : String) : Option String :=
  match significant path with
  | [] => none
  | name :: _ =>
    let reversed := name.toList.reverse
    let after := reversed.takeWhile (· ≠ '.')
    let before := (reversed.dropWhile (· ≠ '.')).drop 1
    if name = ".." || before.isEmpty then none else some (String.ofList after.reverse)

/-- The paths of which each ends in a part that says something, the longest first. The parts are
given in reverse: the head is the last one. -/
def leading (rooted : Bool) : List String → List String
  | [] => []
  | [part] => if part.isEmpty then [] else [part]
  | part :: rest =>
    if part.isEmpty || part = "." then leading rooted rest
    else ofReversed rooted (part :: rest) :: leading rooted rest

/-- A path and those of the directories around it, as far as it names them, the innermost first. The
root is not among them. -/
def ancestors (path : String) : List String :=
  leading (path.startsWith "/") (parts path).reverse

/-- The parts before the last one and the last one, whatever slashes follow it; nothing for a path
of slashes only. -/
def splitLast? (path : String) : Option (List String × String) :=
  match (parts path).reverse.dropWhile (·.isEmpty) with
  | [] => none
  | last :: before => some (before.reverse, last)

/-! ## Limits -/

/-- The number of bytes that a path may have. -/
def maxBytes : Nat := 4095

/-- The number of bytes that one part of a path may have. -/
def maxPartBytes : Nat := 255

end MaximalMunch.Path
