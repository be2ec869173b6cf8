import Mathlib.Algebra.Ring.Nat
import Mathlib.Data.List.Perm.Basic

/-!
# Replacing one element of a list

Shards, deques and workers are kept in lists, and each step replaces one of them.

* `flatMap_set_perm` : what the parts hold together when one is replaced;
* `flatMap_set_of_eq` : the case that the new part holds what the old one held;
* `mem_set_of_mem` : all parts but the replaced one are still there;
* `map_set_self` : what is read off the parts, one of which is replaced by itself;
* `sum_map_set` : what the parts count together when one is replaced;
* `map_eq_map_map` : what is read off elements through a part of them.
-/

namespace StateSpace

theorem flatMap_set_perm {α β : Type} (f : α → List β) : ∀ {l : List α} {i : Nat} {a : α} (b : α), l[i]? = some a →
    (f a ++ (l.set i b).flatMap f).Perm (f b ++ l.flatMap f)
  | [], i, a, b, h => by simp at h
  | x :: l, 0, a, b, h => by
    have hx : x = a := by simpa using h
    subst hx
    simp only [List.set_cons_zero, List.flatMap_cons, ← List.append_assoc]
    exact List.perm_append_comm.append_right _
  | x :: l, i + 1, a, b, h => by
    have ih := flatMap_set_perm f (l := l) (i := i) b (by simpa using h)
    simp only [List.set_cons_succ, List.flatMap_cons]
    calc f a ++ (f x ++ (l.set i b).flatMap f)
      _ |>.Perm (f x ++ (f a ++ (l.set i b).flatMap f)) := by
        simp only [← List.append_assoc]
        exact List.perm_append_comm.append_right _
      _ |>.Perm (f x ++ (f b ++ l.flatMap f)) := ih.append_left _
      _ |>.Perm (f b ++ (f x ++ l.flatMap f)) := by
        simp only [← List.append_assoc]
        exact List.perm_append_comm.append_right _

theorem flatMap_set_of_eq {α β : Type} (f : α → List β) : ∀ {l : List α} {i : Nat} {a b : α}, l[i]? = some a →
    f b = f a → (l.set i b).flatMap f = l.flatMap f
  | [], i, a, b, h, _ => by simp at h
  | x :: l, 0, a, b, h, hab => by
    have hx : x = a := by simpa using h
    subst hx
    simp only [List.set_cons_zero, List.flatMap_cons, hab]
  | x :: l, i + 1, a, b, h, hab => by
    have ih := flatMap_set_of_eq f (l := l) (i := i) (by simpa using h) hab
    simp only [List.set_cons_succ, List.flatMap_cons, ih]

theorem mem_set_of_mem {α : Type} {l : List α} {i : Nat} {a x : α} (b : α) (hi : l[i]? = some a) (hx : x ∈ l) :
    x = a ∨ x ∈ l.set i b := by
  obtain ⟨j, hj⟩ := List.mem_iff_getElem?.1 hx
  by_cases hij : i = j
  · left
    rw [hij, hj] at hi
    exact Option.some.inj hi
  · right
    exact List.mem_iff_getElem?.2 ⟨j, by rw [List.getElem?_set_ne hij, hj]⟩

theorem map_set_self {α β : Type} (f : α → β) {l : List α} {i : Nat} {a : α} (h : l[i]? = some a) :
    (l.map f).set i (f a) = l.map f := by
  obtain ⟨hi, rfl⟩ := List.getElem?_eq_some_iff.1 h
  rw [← List.map_set, List.set_getElem_self]

theorem sum_map_set {α : Type} (f : α → Nat) {l : List α} {i : Nat} {a : α} (h : l[i]? = some a) (b : α) :
    ((l.set i b).map f).sum + f a = (l.map f).sum + f b := by
  obtain ⟨hi, rfl⟩ := List.getElem?_eq_some_iff.1 h
  have hnew := ((List.set_perm_cons_eraseIdx hi b).map f).sum_nat
  have hold := ((List.getElem_cons_eraseIdx_perm hi).map f).sum_nat
  rw [List.map_cons, List.sum_cons] at hnew hold
  omega

theorem map_eq_map_map {α β γ : Type} {l : List α} {f : α → γ} {g : α → β} {k : β → γ} (h : ∀ x ∈ l, f x = k (g x)) :
    l.map f = (l.map g).map k := by
  rw [List.map_map]
  exact List.map_congr_left h

end StateSpace
