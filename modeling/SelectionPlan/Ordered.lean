/-!
# Ordered lists

Sets and maps whose order shows in output are kept as ascending lists without repetition, so that
equal contents are equal lists.
-/

namespace SelectionPlan

variable {α β : Type}

section Sets

variable [LT α] [DecidableLT α]

def insertDistinct (x : α) : List α → List α
  | [] => [x]
  | y :: ys =>
    if x < y then x :: y :: ys
    else if y < x then y :: insertDistinct x ys
    else y :: ys

def unionDistinct (xs ys : List α) : List α := xs.foldr insertDistinct ys

def sortDistinct (xs : List α) : List α := unionDistinct xs []

end Sets

section Maps

variable [LT α] [DecidableLT α]

def insertKey (key : α) (value : β) : List (α × β) → List (α × β)
  | [] => [(key, value)]
  | (k, v) :: rest =>
    if key < k then (key, value) :: (k, v) :: rest
    else if k < key then (k, v) :: insertKey key value rest
    else (key, value) :: rest

def lookupKey [DecidableEq α] (key : α) : List (α × β) → Option β
  | [] => none
  | (k, v) :: rest => if k = key then some v else lookupKey key rest

end Maps

section Sorting

/-- Adds an element in front of the first one that `before` does not put ahead of it. -/
def insertAfter (before : α → α → Bool) (x : α) : List α → List α
  | [] => [x]
  | y :: ys => if before y x then y :: insertAfter before x ys else x :: y :: ys

/-- Sorts a list; elements that `before` does not tell apart keep their order. -/
def sortStable (before : α → α → Bool) (xs : List α) : List α :=
  xs.foldr (insertAfter before) []

end Sorting

end SelectionPlan
