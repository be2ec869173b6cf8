import StateSpace.Hash
import StateSpace.Property

/-!
# Models

A `Model` is a state machine: initial states, the actions enabled in a state, and the state an action leads to, if it
applies. Its code may raise a `Fault`.

* `Model.fingerprint`: the key under which a search knows a state.
* `Model.successors`: the edges that leave a state.
* `Model.Step`, `Model.Reachable`: the edges as a relation, and the states a search can meet, which expands only states
  within the boundary.
-/

namespace StateSpace

/-- A state machine with states `σ` and actions `α`. -/
structure Model (σ α : Type) where
  initStates : List σ
  actions : σ → Except Fault (List α)
  next : σ → α → Except Fault (Option σ)
  properties : List (Property σ) := []
  withinBoundary : σ → Except Fault Bool := fun _ => .ok true
  hash : σ → UInt64
  formatState : σ → String := fun _ => "<state>"
  formatAction : α → String := fun _ => "<action>"

namespace Model

variable {σ α : Type}

def fingerprint (m : Model σ α) (s : σ) : Fingerprint := Hash.fingerprint (m.hash s)

structure Edge (σ α : Type) where
  action : α
  target : σ
  deriving DecidableEq, Repr

/-- The edges of the given actions; actions that do not apply have none. -/
def edges (m : Model σ α) (s : σ) : List α → Except Fault (List (Edge σ α))
  | [] => .ok []
  | a :: as => do
    match ← m.next s a with
    | none => m.edges s as
    | some t => return ⟨a, t⟩ :: (← m.edges s as)

def successors (m : Model σ α) (s : σ) : Except Fault (List (Edge σ α)) := do m.edges s (← m.actions s)

/-- `a` is enabled in `s` and leads to `t`. -/
def Step (m : Model σ α) (s : σ) (a : α) (t : σ) : Prop :=
  (∃ as, m.actions s = .ok as ∧ a ∈ as) ∧ m.next s a = .ok (some t)

/-- A state that is initial or follows a reachable state within the boundary. -/
inductive Reachable (m : Model σ α) : σ → Prop
  | init {s : σ} : s ∈ m.initStates → Reachable m s
  | step {s t : σ} {a : α} : Reachable m s → m.withinBoundary s = .ok true → m.Step s a t → Reachable m t

end Model

end StateSpace
