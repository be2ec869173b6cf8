import Mathlib.Data.Set.Function
import StateSpace.Systems.Graph

/-!
# Reachable states of explicit graphs

* `Graph.encloses g L` : the list `L` has the initial states and the targets of its members' edges, which can be checked;
* `Graph.mem_of_reachable` : then it has every reachable state;
* `Graph.injOn_fingerprint` : so fingerprints tell reachable states apart if they tell the members of `L` apart.
-/

namespace StateSpace.Graph

def targets (g : Graph) (s : Nat) : List Nat :=
  match g.fan s with
  | .raise _ => []
  | .edges ts => ts.filterMap fun
    | .state t => some t
    | _ => none

/-- The list has the initial states, and the targets of its members. -/
def encloses (g : Graph) (L : List Nat) : Bool :=
  g.init.all (· ∈ L) && L.all fun s => (g.targets s).all (· ∈ L)

variable {g : Graph}

theorem mem_targets {s t : Nat} {a : Int} (h : g.model.Step s a t) : t ∈ g.targets s := by
  have hnext : g.follow s a = .ok (some t) := h.2
  unfold follow at hnext
  unfold targets
  cases hf : g.fan s with
  | raise message =>
    rw [hf] at hnext
    cases hnext
  | edges ts =>
    rw [hf] at hnext
    dsimp only at hnext ⊢
    by_cases hneg : a < 0
    · rw [if_pos hneg] at hnext
      cases hnext
    · rw [if_neg hneg] at hnext
      cases ht : ts[a.toNat]? with
      | none =>
        rw [ht] at hnext
        cases hnext
      | some x =>
        rw [ht] at hnext
        cases x with
        | state u =>
          cases hnext
          exact List.mem_filterMap.2 ⟨_, List.mem_of_getElem? ht, rfl⟩
        | blocked => cases hnext
        | raise message => cases hnext

theorem mem_of_reachable {L : List Nat} (h : g.encloses L = true) {t : Nat} (ht : g.model.Reachable t) : t ∈ L := by
  simp only [encloses, Bool.and_eq_true, List.all_eq_true, decide_eq_true_eq] at h
  induction ht with
  | init hi => exact h.1 _ hi
  | step _ _ hstep ih => exact h.2 _ ih _ (mem_targets hstep)

theorem injOn_fingerprint {L : List Nat} (h : g.encloses L = true)
    (hinj : ∀ x ∈ L, ∀ y ∈ L, g.model.fingerprint x = g.model.fingerprint y → x = y) :
    Set.InjOn g.model.fingerprint {t | g.model.Reachable t} :=
  fun x hx y hy => hinj x (mem_of_reachable h hx) y (mem_of_reachable h hy)

end StateSpace.Graph
