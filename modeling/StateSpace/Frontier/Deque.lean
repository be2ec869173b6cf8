/-!
# Double-ended queues

A `Deque` keeps entries in the order they were pushed, and gives back the oldest or the newest.

* `Deque.toList`: the entries, oldest first; every operation is described through it.
* `Deque.push`, `Deque.popOldest?`, `Deque.popNewest?`, `Deque.splitOldest`.
-/

namespace StateSpace

/-- Entries in push order: the older ones in `front`, oldest first, and the newer ones in `back`, newest first. -/
structure Deque (α : Type) where
  front : List α
  back : List α

namespace Deque

variable {α : Type}

def empty : Deque α := ⟨[], []⟩

def toList (d : Deque α) : List α := d.front ++ d.back.reverse

def ofList (xs : List α) : Deque α := ⟨xs, []⟩

def isEmpty (d : Deque α) : Bool := d.front.isEmpty && d.back.isEmpty

def push (d : Deque α) (x : α) : Deque α := ⟨d.front, x :: d.back⟩

def pushAll (d : Deque α) (xs : List α) : Deque α := xs.foldl push d

def popOldest? (d : Deque α) : Option (α × Deque α) :=
  match d.front with
  | x :: front => some (x, ⟨front, d.back⟩)
  | [] =>
    match d.back.reverse with
    | [] => none
    | x :: front => some (x, ⟨front, []⟩)

def popNewest? (d : Deque α) : Option (α × Deque α) :=
  match d.back with
  | x :: back => some (x, ⟨d.front, back⟩)
  | [] =>
    match d.front.reverse with
    | [] => none
    | x :: back => some (x, ⟨[], back⟩)

def splitOldest (d : Deque α) (n : Nat) : List α × Deque α := (d.toList.take n, ofList (d.toList.drop n))

/-! ## The view -/

@[simp]
theorem toList_empty : (empty : Deque α).toList = [] := rfl

@[simp]
theorem toList_ofList (xs : List α) : (ofList xs).toList = xs := by simp [ofList, toList]

@[simp]
theorem toList_push (d : Deque α) (x : α) : (d.push x).toList = d.toList ++ [x] := by simp [push, toList]

@[simp]
theorem toList_pushAll (d : Deque α) (xs : List α) : (d.pushAll xs).toList = d.toList ++ xs := by
  induction xs generalizing d with
  | nil => simp [pushAll]
  | cons x xs ih =>
    have h := ih (d.push x)
    simp only [pushAll, List.foldl_cons] at h ⊢
    simp [h]

@[simp]
theorem isEmpty_iff (d : Deque α) : d.isEmpty ↔ d.toList = [] := by simp [isEmpty, toList]

theorem popOldest?_map (d : Deque α) :
    d.popOldest?.map (fun r => r.1 :: r.2.toList) = if d.toList = [] then none else some d.toList := by
  unfold popOldest? toList
  split
  · simp_all
  · split <;> simp_all

theorem popOldest?_eq_none_iff (d : Deque α) : d.popOldest? = none ↔ d.toList = [] := by
  have h := popOldest?_map d
  by_cases hd : d.toList = [] <;> cases hp : d.popOldest? <;> simp_all

theorem toList_of_popOldest? {d d' : Deque α} {x : α} (h : d.popOldest? = some (x, d')) :
    d.toList = x :: d'.toList := by
  have hm := popOldest?_map d
  rw [h] at hm
  by_cases hd : d.toList = [] <;> simp_all

theorem popNewest?_map (d : Deque α) :
    d.popNewest?.map (fun r => r.2.toList ++ [r.1]) = if d.toList = [] then none else some d.toList := by
  unfold popNewest? toList
  split
  · simp_all
  · split <;> simp_all [List.reverse_eq_cons_iff]

theorem popNewest?_eq_none_iff (d : Deque α) : d.popNewest? = none ↔ d.toList = [] := by
  have h := popNewest?_map d
  by_cases hd : d.toList = [] <;> cases hp : d.popNewest? <;> simp_all

theorem toList_of_popNewest? {d d' : Deque α} {x : α} (h : d.popNewest? = some (x, d')) :
    d.toList = d'.toList ++ [x] := by
  have hm := popNewest?_map d
  rw [h] at hm
  by_cases hd : d.toList = [] <;> simp_all

theorem splitOldest_fst (d : Deque α) (n : Nat) : (d.splitOldest n).1 = d.toList.take n := rfl

theorem toList_splitOldest (d : Deque α) (n : Nat) : (d.splitOldest n).2.toList = d.toList.drop n := by
  simp [splitOldest]

end Deque

end StateSpace
