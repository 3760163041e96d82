/-!
# Lines

A line ends at a feed; a return right before the feed belongs to the ending. What follows the last
feed is a line too, unless it is empty. The rule is the same for text and for bytes.
-/

namespace MaximalMunch.Text

variable {α : Type} [DecidableEq α]

/-- A line that a feed has ended, without a return at its end. -/
def dropReturn (ret : α) (line : List α) : List α :=
  if line.getLast? = some ret then line.dropLast else line

/-- The lines of `xs`; `line` is what has been read of the current one, in reverse. -/
def linesFrom (feed ret : α) (line : List α) : List α → List (List α)
  | [] => if line.isEmpty then [] else [line.reverse]
  | x :: xs =>
    if x = feed then dropReturn ret line.reverse :: linesFrom feed ret [] xs
    else linesFrom feed ret (x :: line) xs

/-- The lines of `xs`. -/
def lines (feed ret : α) (xs : List α) : List (List α) :=
  linesFrom feed ret [] xs

/-- The lines of a text. -/
def linesOfText (text : String) : List String :=
  (lines '\n' '\r' text.toList).map String.ofList

end MaximalMunch.Text
