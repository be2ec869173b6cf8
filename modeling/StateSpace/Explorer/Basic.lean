import StateSpace.Path

/-!
# Exploring by hand

Queries that let one step through the states of a model.

* `Explorer.Node`, `Explorer.roots`: the initial states with their fingerprints.
* `Explorer.Edge`, `Explorer.edges`: the edges that leave a state, with the fingerprints they lead to.
* `Explorer.walk`: a walk that takes edges by number.
-/

namespace StateSpace.Explorer

variable {σ α : Type}

structure Node (σ : Type) where
  fp : Fingerprint
  state : σ
  deriving DecidableEq, Repr

structure Edge (σ α : Type) where
  action : α
  fp : Fingerprint
  state : σ
  deriving DecidableEq, Repr

def roots (m : Model σ α) : List (Node σ) := m.initStates.map fun s => ⟨m.fingerprint s, s⟩

def edges (m : Model σ α) (s : σ) : Except Fault (List (Edge σ α)) := do
  return (← m.successors s).map fun e => ⟨e.action, m.fingerprint e.target, e.target⟩

/-- A step of a walk: the edge taken, and out of how many. -/
structure Stride (σ α : Type) where
  choices : Nat
  edge : Edge σ α

/-- Takes, for each number, the edge with that number modulo the number of edges, up to a state without edges. -/
def walkFrom (m : Model σ α) (s : σ) : List Nat → Except Fault (List (Stride σ α))
  | [] => .ok []
  | c :: cs => do
    let es ← edges m s
    match es[c % es.length]? with
    | none => return []
    | some e => return ⟨es.length, e⟩ :: (← walkFrom m e.state cs)

/-- A walk from the first initial state, and the run that its fingerprints name. -/
def walk (m : Model σ α) (choices : List Nat) :
    Except Fault (Option (List (Stride σ α) × Option (Path σ α))) :=
  match roots m with
  | [] => .ok none
  | root :: _ => do
    let strides ← walkFrom m root.state choices
    return some (strides, ← Path.replay m (root.fp :: strides.map (·.edge.fp)))

end StateSpace.Explorer
