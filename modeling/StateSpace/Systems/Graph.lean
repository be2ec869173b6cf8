import StateSpace.Condition
import StateSpace.Model

/-!
# Explicit graphs

A model given by its graph: states are numbers, and each has a list of edges. An edge leads to a state, does not apply, or
raises a fault; so may the list itself.

* `Graph`: initial states, edges, hashes, and how states and actions are shown.
* `Graph.model`: the graph as a model.
-/

namespace StateSpace

inductive EdgeTarget where
  | state (id : Nat)
  | blocked
  | raise (message : String)
  deriving DecidableEq, Repr

/-- What leaves a state: edges in order, or the fault that enumerating them raises. -/
inductive Fan where
  | edges (targets : List EdgeTarget)
  | raise (message : String)
  deriving DecidableEq, Repr

inductive GraphStyle where
  | unshown
  | plain
  | call
  deriving DecidableEq, Repr

structure Graph where
  init : List Nat
  fans : Array Fan
  /-- Hashes of the states; a state without one is hashed by its number. -/
  hashes : Array UInt64 := #[]
  properties : List (Property Nat) := []
  boundary : Nat → Except Fault Bool := fun _ => .ok true
  style : GraphStyle := .unshown

namespace Graph

def fan (g : Graph) (s : Nat) : Fan := g.fans[s]?.getD (.edges [])

def follow (g : Graph) (s : Nat) (action : Int) : Except Fault (Option Nat) :=
  match g.fan s with
  | .raise _ => .ok none
  | .edges targets =>
    if action < 0 then .ok none
    else
      match targets[action.toNat]? with
      | none | some .blocked => .ok none
      | some (.raise message) => .error ⟨message⟩
      | some (.state t) => .ok (some t)

/-- The graph as a model; an action is the number of an edge. -/
def model (g : Graph) : Model Nat Int where
  initStates := g.init
  actions s :=
    match g.fan s with
    | .raise message => .error ⟨message⟩
    | .edges targets => .ok ((List.range targets.length).map Int.ofNat)
  next := g.follow
  properties := g.properties
  withinBoundary := g.boundary
  hash s := g.hashes[s]?.getD (toWord s)
  formatState s := match g.style with
    | .unshown => "<state>"
    | .plain => s!"s{s}"
    | .call => s!"S({s})"
  formatAction a := match g.style with
    | .unshown => "<action>"
    | .plain => s!"e{a}"
    | .call => s!"E({a})"

end Graph

end StateSpace
