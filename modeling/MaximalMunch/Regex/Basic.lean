import MaximalMunch.CharClass.Basic

/-!
# Patterns

The tree of a pattern. A pattern may refer to tokens by name; `Regex.references` lists those names
in the order of the text.
-/

namespace MaximalMunch

/-- How often an operator allows what stands before it. -/
inductive Repetition where
  | zeroOrMore
  | oneOrMore
  | zeroOrOne
deriving DecidableEq, Repr

/-- The tree of a pattern. A group is kept as a node, though it matches what is inside it. -/
inductive Regex where
  | literal (c : Char)
  | oneOf (members : CharClass)
  | concat (items : List Regex)
  | alternate (branches : List Regex)
  | repeated (times : Repetition) (inner : Regex)
  | group (inner : Regex)
  | reference (name : String)
deriving Inhabited

namespace Regex

/-- A sequence of patterns; a single one stands for itself. -/
def sequence : List Regex → Regex
  | [item] => item
  | items => .concat items

/-- A choice of patterns; a single one stands for itself. -/
def choice : List Regex → Regex
  | [branch] => branch
  | branches => .alternate branches

mutual

/-- The names that a pattern refers to, from left to right, with repeats. -/
def references : Regex → List String
  | .literal _ => []
  | .oneOf _ => []
  | .concat items => referencesOfAll items
  | .alternate branches => referencesOfAll branches
  | .repeated _ inner => references inner
  | .group inner => references inner
  | .reference name => [name]

/-- The names that some patterns refer to, pattern after pattern. -/
def referencesOfAll : List Regex → List String
  | [] => []
  | r :: rest => references r ++ referencesOfAll rest

end

end Regex

end MaximalMunch
