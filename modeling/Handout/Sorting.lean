/-!
# Sorting

Lists are sorted by insertion.  Elements that may stand before each other keep their order.
-/

namespace Handout

/-- Puts an element into a sorted list, before the first element that it may stand before. -/
def insertSorted {α : Type} (le : α → α → Bool) (a : α) : List α → List α
  | [] => [a]
  | b :: r => if le a b then a :: b :: r else b :: insertSorted le a r

/-- Sorts a list; `le a b` tells that `a` may stand before `b`. -/
def sortBy {α : Type} (le : α → α → Bool) (l : List α) : List α := l.foldr (insertSorted le) []

end Handout
