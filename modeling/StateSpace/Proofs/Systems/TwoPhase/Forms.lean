import Mathlib.Data.List.Forall2
import Mathlib.Logic.Relation
import StateSpace.Proofs.Systems.TwoPhase.Stances

/-!
# The reachable states of two-phase commit

* `stances tm` : the stances that a resource manager can have when the transaction manager is in the state `tm`;
* `IsForm n s` : `s` is assembled from a state of the transaction manager and `n` of these stances, chosen independently;
* `isForm_of_reachable` : nothing else is reachable, as every turn keeps to the form;
* `reachable_of_isForm` : every form is reachable. The resource managers first go where they were when the decision was taken
  (`origin`), one after another, then the decision is taken, and they follow it one after another.
-/

namespace StateSpace.TwoPhase

/-- The stances of resource managers, given the state of the transaction manager. -/
def stances : TmState → List Stance
  | .init => [⟨.working, false, false⟩, ⟨.aborted, false, false⟩, ⟨.prepared, true, false⟩, ⟨.prepared, true, true⟩]
  | .committed => [⟨.prepared, true, true⟩, ⟨.committed, true, true⟩]
  | .aborted => [⟨.working, false, false⟩, ⟨.aborted, false, false⟩, ⟨.prepared, true, false⟩, ⟨.prepared, true, true⟩,
      ⟨.aborted, true, false⟩, ⟨.aborted, true, true⟩]

/-- The state is assembled from stances that go with the state of the transaction manager. -/
def IsForm (n : Nat) (s : State) : Prop :=
  ∃ tm xs, xs.length = n ∧ (∀ x ∈ xs, x ∈ stances tm) ∧ s = assemble tm xs

/-! ## Nothing else is reachable -/

theorem Shift.mem_stances {tm : TmState} {k : ActionKind} {x y : Stance} (h : Shift tm k x y) (hx : x ∈ stances tm) :
    y ∈ stances tm := by
  -- twelve stances, with at most two shifts each
  cases tm <;> simp only [stances, List.mem_cons, List.not_mem_nil, or_false] at hx ⊢ <;>
    rcases hx with rfl | rfl | rfl | rfl | rfl | rfl <;> cases h <;> simp_all

theorem mem_stances_committed {x : Stance} (hx : x ∈ stances .init) (h : x.heard = true) : x ∈ stances .committed := by
  revert x
  decide

theorem mem_stances_aborted {x : Stance} (hx : x ∈ stances .init) : x ∈ stances .aborted := by
  revert x
  decide

theorem Turn.mem_stances {a : Action} {c c' : TmState × List Stance} (h : Turn a c c')
    (hc : ∀ x ∈ c.2, x ∈ stances c.1) : c'.2.length = c.2.length ∧ ∀ x ∈ c'.2, x ∈ stances c'.1 := by
  cases h with
  | commit hall => exact ⟨rfl, fun x hx => mem_stances_committed (hc x hx) (hall x hx)⟩
  | abort => exact ⟨rfl, fun x hx => mem_stances_aborted (hc x hx)⟩
  | shift hx hy =>
    refine ⟨List.length_set, fun z hz => ?_⟩
    rcases List.mem_or_eq_of_mem_set hz with hz | rfl
    · exact hc z hz
    · exact hy.mem_stances (hc _ (List.mem_of_getElem? hx))

theorem initial_eq_assemble (n : Nat) : initial n = assemble .init (List.replicate n ⟨.working, false, false⟩) := by
  have hnotices : ∀ first, notices first (List.replicate n ⟨.working, false, false⟩) = [] := by
    induction n with
    | zero => exact fun _ => rfl
    | succ n ih => exact fun first => ih (first + 1)
  simp only [initial, assemble, hnotices, decision, List.map_replicate, List.append_nil]

theorem isForm_of_reachable {n : Nat} {s : State} (h : (model n).Reachable s) : IsForm n s := by
  induction h with
  | init hs =>
    rw [List.mem_singleton.1 hs]
    refine ⟨.init, _, List.length_replicate, fun x hx => ?_, initial_eq_assemble n⟩
    rw [List.eq_of_mem_replicate hx]
    decide
  | step _ _ hstep ih =>
    obtain ⟨tm, xs, rfl, hxs, rfl⟩ := ih
    obtain ⟨c, hturn, rfl⟩ := step_assemble.1 hstep
    obtain ⟨hlength, hc⟩ := hturn.mem_stances hxs
    exact ⟨c.1, c.2, hlength, hc, rfl⟩

/-! ## Every form is reachable -/

/-- Shifts lead from one stance to another. -/
def Shifts (tm : TmState) : Stance → Stance → Prop := Relation.ReflTransGen fun x y => ∃ k, Shift tm k x y

theorem reachable_turn {n : Nat} {a : Action} {tm : TmState} {xs : List Stance} {c : TmState × List Stance}
    (hn : xs.length = n) (h : (model n).Reachable (assemble tm xs)) (hturn : Turn a (tm, xs) c) :
    (model n).Reachable (assemble c.1 c.2) := by
  subst hn
  exact h.step rfl (step_assemble.2 ⟨c, hturn, rfl⟩)

/-- One resource manager goes as far as its shifts lead. -/
theorem reachable_shifts {n : Nat} {tm : TmState} {before after : List Stance} {x y : Stance}
    (hn : (before ++ x :: after).length = n) (h : (model n).Reachable (assemble tm (before ++ x :: after)))
    (hxy : Shifts tm x y) : (model n).Reachable (assemble tm (before ++ y :: after)) := by
  induction hxy with
  | refl => exact h
  | @tail y z _ hyz ih =>
    obtain ⟨k, hk⟩ := hyz
    have hy : (before ++ y :: after)[before.length]? = some y := by simp
    have hturn := reachable_turn (by simpa using hn) ih (.shift hy hk)
    simpa using hturn

theorem reachable_forall₂ {n : Nat} {tm : TmState} {xs ys : List Stance} (hxy : List.Forall₂ (Shifts tm) xs ys)
    (before : List Stance) (hn : (before ++ xs).length = n) (h : (model n).Reachable (assemble tm (before ++ xs))) :
    (model n).Reachable (assemble tm (before ++ ys)) := by
  induction hxy generalizing before with
  | nil => exact h
  | @cons x y xs ys hx _ ih =>
    have hrest := ih (before ++ [y]) (by simpa using hn) (by simpa using reachable_shifts hn h hx)
    simpa using hrest

/-- The stance that a resource manager had when the decision was taken. -/
def origin : TmState → Stance → Stance
  | .init, x => x
  | .committed, _ => ⟨.prepared, true, true⟩
  | .aborted, x => if x ∈ stances .init then x else { x with rm := .prepared }

theorem shifts_init {x : Stance} (hx : x ∈ stances .init) : Shifts .init ⟨.working, false, false⟩ x := by
  have hprepare : Shifts .init ⟨.working, false, false⟩ ⟨.prepared, true, false⟩ := .single ⟨_, .prepare rfl⟩
  simp only [stances, List.mem_cons, List.not_mem_nil, or_false] at hx
  rcases hx with rfl | rfl | rfl | rfl
  · exact .refl
  · exact .single ⟨_, .quit rfl⟩
  · exact hprepare
  · exact hprepare.tail ⟨_, .hear rfl rfl⟩

theorem origin_mem {tm : TmState} {x : Stance} (hx : x ∈ stances tm) : origin tm x ∈ stances .init := by
  cases tm with
  | init => exact hx
  | committed =>
    show (⟨.prepared, true, true⟩ : Stance) ∈ stances .init
    decide
  | aborted =>
    revert x
    decide

theorem shifts_origin {tm : TmState} {x : Stance} (hx : x ∈ stances tm) : Shifts tm (origin tm x) x := by
  cases tm with
  | init => exact .refl
  | committed =>
    simp only [stances, List.mem_cons, List.not_mem_nil, or_false] at hx
    rcases hx with rfl | rfl
    · exact .refl
    · exact .single ⟨_, .commit rfl⟩
  | aborted =>
    simp only [stances, List.mem_cons, List.not_mem_nil, or_false] at hx
    rcases hx with rfl | rfl | rfl | rfl | rfl | rfl
    · exact .refl
    · exact .refl
    · exact .refl
    · exact .refl
    · exact .single ⟨_, .abort rfl⟩
    · exact .single ⟨_, .abort rfl⟩

theorem reachable_init {xs : List Stance} (h : ∀ x ∈ xs, x ∈ stances .init) :
    (model xs.length).Reachable (assemble .init xs) := by
  have hstart : (model xs.length).Reachable (assemble .init (List.replicate xs.length ⟨.working, false, false⟩)) := by
    rw [← initial_eq_assemble]
    exact .init List.mem_cons_self
  refine reachable_forall₂ ?_ [] List.length_replicate hstart
  rw [List.forall₂_iff_get]
  refine ⟨List.length_replicate, fun i h1 h2 => ?_⟩
  simp only [List.get_eq_getElem, List.getElem_replicate]
  exact shifts_init (h _ (List.getElem_mem h2))

theorem reachable_of_isForm {n : Nat} {s : State} (h : IsForm n s) : (model n).Reachable s := by
  obtain ⟨tm, xs, rfl, hxs, rfl⟩ := h
  have horigins : (model xs.length).Reachable (assemble .init (xs.map (origin tm))) := by
    have hmem : ∀ y ∈ xs.map (origin tm), y ∈ stances .init := by
      intro y hy
      obtain ⟨x, hx, rfl⟩ := List.mem_map.1 hy
      exact origin_mem (hxs x hx)
    have hinit := reachable_init hmem
    rwa [List.length_map] at hinit
  have hdecided : (model xs.length).Reachable (assemble tm (xs.map (origin tm))) := by
    cases tm with
    | init => exact horigins
    | committed =>
      refine reachable_turn (List.length_map _) horigins (.commit fun y hy => ?_)
      obtain ⟨x, -, rfl⟩ := List.mem_map.1 hy
      rfl
    | aborted => exact reachable_turn (List.length_map _) horigins .abort
  refine reachable_forall₂ ?_ [] (List.length_map _) hdecided
  rw [List.forall₂_map_left_iff, List.forall₂_same]
  exact fun x hx => shifts_origin (hxs x hx)

/-- **The reachable states** are the forms. -/
theorem reachable_iff_isForm {n : Nat} {s : State} : (model n).Reachable s ↔ IsForm n s :=
  ⟨isForm_of_reachable, reachable_of_isForm⟩

end StateSpace.TwoPhase
