/-!
# Sorted lists

Sets and multisets that have to be compared and hashed are kept as sorted lists, so that equal contents are equal lists.

* `Sorted.insert`: one more copy of an element.
* `Sorted.insertNew`: an element unless it is there.
* `Sorted.ofList`: a multiset from its elements in any order.
* `Sorted.distinct`: each element of a sorted list once.
-/

namespace StateSpace.Sorted

variable {α : Type}

/-- Adds an element behind those not above it. -/
def insert [Ord α] (x : α) : List α → List α
  | [] => [x]
  | y :: ys => if compare x y = .lt then x :: y :: ys else y :: insert x ys

def insertNew [Ord α] (x : α) : List α → List α
  | [] => [x]
  | y :: ys =>
    match compare x y with
    | .lt => x :: y :: ys
    | .eq => y :: ys
    | .gt => y :: insertNew x ys

def insertAll [Ord α] (xs : List α) (sorted : List α) : List α := xs.foldl (fun acc x => insert x acc) sorted

def ofList [Ord α] (xs : List α) : List α := insertAll xs []

/-- Each run of equal elements once. -/
def distinct [DecidableEq α] : List α → List α
  | [] => []
  | [x] => [x]
  | x :: y :: rest => if x = y then distinct (y :: rest) else x :: distinct (y :: rest)

end StateSpace.Sorted
