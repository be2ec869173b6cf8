import Mathlib.Data.List.Perm.Basic
import StateSpace.Sorted

/-!
# Sorted lists as multisets

* `insert_perm`, `insertAll_perm` : adding elements adds them, whatever the order is;
* `mem_distinct` : passing over repetitions keeps the members;
* `IsSorted l` : no element is above a later one; kept by insertions and removals;
* `IsSorted.eq_of_perm` : sorted lists with the same elements are equal;
* `IsSorted.distinct` : a sorted list without its repetitions ascends, and is known by its members;
* `lookup`, `takeOut`, `leaps` : searching a list by the order of its elements alone; `IsSorted.lookup_eq`,
  `IsSorted.takeOut_eq`, `IsSorted.leaps_eq` : in a sorted list these find what is equal.
-/

namespace StateSpace.Sorted

variable {α : Type}

/-! ## Elements -/

theorem insert_perm [Ord α] (x : α) (l : List α) : (insert x l).Perm (x :: l) := by
  induction l with
  | nil => exact List.Perm.refl _
  | cons y ys ih =>
    unfold insert
    split
    · exact List.Perm.refl _
    · exact (ih.cons y).trans (List.Perm.swap x y ys)

theorem insertAll_perm [Ord α] (xs l : List α) : (insertAll xs l).Perm (xs ++ l) := by
  induction xs generalizing l with
  | nil => exact List.Perm.refl _
  | cons x xs ih =>
    have hrest : (insertAll xs (insert x l)).Perm (xs ++ insert x l) := ih (insert x l)
    exact hrest.trans (((insert_perm x l).append_left xs).trans List.perm_middle)

theorem ofList_perm [Ord α] (xs : List α) : (ofList xs).Perm xs := by
  have h := insertAll_perm xs []
  rwa [List.append_nil] at h

@[simp] theorem mem_distinct [DecidableEq α] {x : α} {l : List α} : x ∈ distinct l ↔ x ∈ l := by
  fun_induction distinct l with
  | case1 => exact Iff.rfl
  | case2 y => exact Iff.rfl
  | case3 y rest ih => simp [ih]
  | case4 y z rest hne ih => rw [List.mem_cons, ih, List.mem_cons (a := x) (b := y)]

/-! ## Order -/

/-- No element is above a later one. -/
def IsSorted [Ord α] (l : List α) : Prop := l.Pairwise fun x y => (compare x y).isLE

instance [Ord α] (l : List α) : Decidable (IsSorted l) := inferInstanceAs (Decidable (l.Pairwise _))

theorem IsSorted.erase [Ord α] [DecidableEq α] {l : List α} (h : IsSorted l) (x : α) : IsSorted (l.erase x) :=
  List.Pairwise.sublist List.erase_sublist h

theorem IsSorted.insert [Ord α] [Std.TransOrd α] {l : List α} (h : IsSorted l) (x : α) : IsSorted (insert x l) := by
  induction l with
  | nil => exact List.pairwise_singleton _ _
  | cons y ys ih =>
    obtain ⟨hy, hys⟩ := List.pairwise_cons.1 h
    unfold Sorted.insert
    split
    · rename_i hlt
      have hxy : (compare x y).isLE := Ordering.isLE_of_eq_lt hlt
      refine List.pairwise_cons.2 ⟨fun z hz => ?_, h⟩
      rcases List.mem_cons.1 hz with rfl | hz
      · exact hxy
      · exact Std.TransOrd.isLE_trans hxy (hy z hz)
    · rename_i hnot
      have hyx : (compare y x).isLE := by
        by_contra hgt
        exact hnot (Std.OrientedCmp.lt_of_not_isLE hgt)
      refine List.pairwise_cons.2 ⟨fun z hz => ?_, ih hys⟩
      rcases List.mem_cons.1 ((insert_perm x ys).mem_iff.1 hz) with rfl | hz
      · exact hyx
      · exact hy z hz

theorem IsSorted.insertAll [Ord α] [Std.TransOrd α] {l : List α} (h : IsSorted l) (xs : List α) :
    IsSorted (insertAll xs l) := by
  induction xs generalizing l with
  | nil => exact h
  | cons x xs ih => exact ih (h.insert x)

theorem isSorted_ofList [Ord α] [Std.TransOrd α] (xs : List α) : IsSorted (ofList xs) :=
  IsSorted.insertAll List.Pairwise.nil xs

/-- A sorted list is known by its elements. -/
theorem IsSorted.eq_of_perm [Ord α] [Std.TransOrd α] [Std.LawfulEqOrd α] {l l' : List α} (h : IsSorted l)
    (h' : IsSorted l') (hp : l.Perm l') : l = l' := by
  refine hp.eq_of_pairwise (fun x y _ _ hxy hyx => ?_) h h'
  exact Std.LawfulEqOrd.eq_of_compare (Std.OrientedCmp.isLE_antisymm hxy hyx)

theorem lt_of_isLE_of_ne [Ord α] [Std.LawfulEqOrd α] {x y : α} (hle : (compare x y).isLE) (hne : x ≠ y) :
    compare x y = .lt := by
  cases h : compare x y with
  | lt => rfl
  | eq => exact absurd (Std.LawfulEqOrd.eq_of_compare h) hne
  | gt =>
    rw [h] at hle
    cases hle

/-! ## Repetitions -/

section

variable [Ord α] [Std.TransOrd α] [Std.LawfulEqOrd α] [DecidableEq α] {l l' : List α}

/-- Passing over repetitions, a sorted list ascends. -/
theorem IsSorted.distinct (h : IsSorted l) : (distinct l).Pairwise fun x y => compare x y = .lt := by
  fun_induction Sorted.distinct l with
  | case1 => exact List.Pairwise.nil
  | case2 x => exact List.pairwise_singleton _ _
  | case3 y rest ih => exact ih (List.pairwise_cons.1 h).2
  | case4 x y rest hne ih =>
    obtain ⟨hx, hrest⟩ := List.pairwise_cons.1 h
    refine List.pairwise_cons.2 ⟨fun z hz => ?_, ih hrest⟩
    have hz' : z ∈ y :: rest := mem_distinct.1 hz
    have hxy : (compare x y).isLE := hx y List.mem_cons_self
    refine lt_of_isLE_of_ne (hx z hz') ?_
    -- were `z` equal to `x`, so would be `y`, which lies between them
    rintro rfl
    apply hne
    rcases List.mem_cons.1 hz' with rfl | hz'
    · rfl
    · have hyx : (compare y x).isLE := (List.pairwise_cons.1 hrest).1 x hz'
      exact Std.LawfulEqOrd.eq_of_compare (Std.OrientedCmp.isLE_antisymm hxy hyx)

theorem IsSorted.nodup_distinct (h : IsSorted l) : (Sorted.distinct l).Nodup := by
  refine h.distinct.imp fun {x y} hlt heq => ?_
  rw [heq, Std.ReflOrd.compare_self] at hlt
  cases hlt

/-- How often the members of a sorted list occur does not show once repetitions are passed over. -/
theorem IsSorted.distinct_congr (h : IsSorted l) (h' : IsSorted l') (hmem : ∀ x, x ∈ l ↔ x ∈ l') :
    Sorted.distinct l = Sorted.distinct l' := by
  have hsorted : ∀ {l : List α}, IsSorted l → IsSorted (Sorted.distinct l) := by
    intro l hl
    exact hl.distinct.imp fun hlt => Ordering.isLE_of_eq_lt hlt
  refine (hsorted h).eq_of_perm (hsorted h') ?_
  rw [List.perm_ext_iff_of_nodup h.nodup_distinct h'.nodup_distinct]
  intro x
  rw [mem_distinct, mem_distinct, hmem]

end

/-! ## Searches by the order -/

section

variable [Ord α]

/-- The list from the first element on that is not below `x`. -/
def lowerBound (x : α) (l : List α) : List α := l.dropWhile fun y => compare y x == .lt

/-- The list from the first element on that is above `x`. -/
def upperBound (x : α) (l : List α) : List α := l.dropWhile fun y => compare x y != .lt

/-- The first element that is neither below nor above `x`, if all in front of it are below. -/
def lookup (x : α) (l : List α) : Option α := (lowerBound x l).head?.filter fun y => compare x y != .lt

/-- The list without the element at the lower bound of `x`. -/
def takeOut (x : α) (l : List α) : List α := (l.takeWhile fun y => compare y x == .lt) ++ (lowerBound x l).tail

/-- The elements that are met by going from each one to its upper bound. -/
def leaps : List α → List α
  | [] => []
  | x :: xs => x :: leaps (upperBound x xs)
termination_by l => l.length
decreasing_by exact Nat.lt_succ_of_le (List.dropWhile_suffix _).length_le

variable [Std.LawfulEqOrd α] [DecidableEq α] {l : List α}

theorem IsSorted.lookup_eq [Std.TransOrd α] (h : IsSorted l) (x : α) : lookup x l = if x ∈ l then some x else none := by
  induction l with
  | nil => rfl
  | cons y ys ih =>
    obtain ⟨hy, hys⟩ := List.pairwise_cons.1 h
    unfold lookup lowerBound
    cases hc : compare y x with
    | lt =>
      have hne : x ≠ y := by
        rintro rfl
        rw [Std.ReflOrd.compare_self] at hc
        cases hc
      rw [List.dropWhile_cons_of_pos (by rw [hc]; rfl)]
      simp only [List.mem_cons, hne, false_or]
      exact ih hys
    | eq =>
      obtain rfl := Std.LawfulEqOrd.eq_of_compare hc
      rw [List.dropWhile_cons_of_neg (by rw [hc]; decide), if_pos List.mem_cons_self, List.head?_cons]
      simp
    | gt =>
      have hlt : compare x y = .lt := Std.OrientedCmp.lt_of_gt hc
      -- what comes later is above `y`, and so above `x`
      have hnot : x ∉ y :: ys := by
        intro hx
        rcases List.mem_cons.1 hx with rfl | hx
        · rw [Std.ReflOrd.compare_self] at hc
          cases hc
        · have hle := hy x hx
          rw [hc] at hle
          cases hle
      rw [List.dropWhile_cons_of_neg (by rw [hc]; decide), if_neg hnot, List.head?_cons]
      simp [hlt]

theorem IsSorted.takeOut_eq (h : IsSorted l) {x : α} (hx : x ∈ l) : takeOut x l = l.erase x := by
  induction l with
  | nil => cases hx
  | cons y ys ih =>
    obtain ⟨hy, hys⟩ := List.pairwise_cons.1 h
    unfold takeOut lowerBound
    by_cases heq : y = x
    · subst heq
      have hself : compare y y = .eq := Std.ReflOrd.compare_self
      rw [List.takeWhile_cons_of_neg (by rw [hself]; decide), List.dropWhile_cons_of_neg (by rw [hself]; decide),
        List.erase_cons_head]
      rfl
    · have hmem : x ∈ ys := (List.mem_cons.1 hx).resolve_left (Ne.symm heq)
      have hlt : compare y x = .lt := lt_of_isLE_of_ne (hy x hmem) heq
      rw [List.takeWhile_cons_of_pos (by rw [hlt]; rfl), List.dropWhile_cons_of_pos (by rw [hlt]; rfl),
        List.erase_cons_tail (by simpa using heq), List.cons_append]
      exact congrArg (y :: ·) (ih hys hmem)

theorem IsSorted.distinct_cons {x : α} {xs : List α} (h : IsSorted (x :: xs)) :
    Sorted.distinct (x :: xs) = x :: Sorted.distinct (upperBound x xs) := by
  induction xs with
  | nil => rfl
  | cons y ys ih =>
    obtain ⟨hx, hrest⟩ := List.pairwise_cons.1 h
    have hskip : IsSorted (x :: ys) := h.sublist ((List.sublist_cons_self y ys).cons_cons x)
    by_cases heq : x = y
    · subst heq
      have hupper : upperBound x (x :: ys) = upperBound x ys :=
        List.dropWhile_cons_of_pos (by rw [Std.ReflOrd.compare_self]; rfl)
      rw [hupper, ← ih hskip, Sorted.distinct, if_pos rfl]
    · have hlt : compare x y = .lt := lt_of_isLE_of_ne (hx y List.mem_cons_self) heq
      have hupper : upperBound x (y :: ys) = y :: ys := List.dropWhile_cons_of_neg (by rw [hlt]; decide)
      rw [hupper, Sorted.distinct, if_neg heq]

/-- Going from bound to bound, a sorted list is passed without its repetitions. -/
theorem IsSorted.leaps_eq (h : IsSorted l) : leaps l = Sorted.distinct l := by
  fun_induction leaps l with
  | case1 => rfl
  | case2 x xs ih =>
    have hrest : IsSorted (upperBound x xs) := (List.pairwise_cons.1 h).2.sublist (List.dropWhile_sublist _)
    rw [h.distinct_cons, ih hrest]

end

end StateSpace.Sorted
