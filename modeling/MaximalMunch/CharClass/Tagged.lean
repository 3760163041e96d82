import MaximalMunch.CharClass.Basic

/-!
# Tagged spans

A list of spans, each with a tag, stands for a partial map from code points to tags.
`Span.Tagged.joinAll` writes the same map with fewer spans: it joins spans that touch and have the
same tag.
-/

namespace MaximalMunch

/-- A span and the value that its code points have. -/
structure Span.Tagged (α : Type) extends Span where
  tag : α
deriving DecidableEq

namespace Span.Tagged

variable {α : Type} [DecidableEq α]

/-- Joins each span with the spans right after it that touch it and have the same tag. `cur` is the
span collected so far. -/
def join (cur : Tagged α) : List (Tagged α) → List (Tagged α)
  | [] => [cur]
  | s :: rest =>
    if s.tag = cur.tag ∧ cur.hi.toNat + 1 = s.lo.toNat then join { cur with hi := s.hi } rest
    else cur :: join s rest

/-- Joins spans that touch and have the same tag. -/
def joinAll : List (Tagged α) → List (Tagged α)
  | [] => []
  | s :: rest => s.join rest

end Span.Tagged

end MaximalMunch
