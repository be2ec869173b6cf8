import StateSpace.Actor.Network
import StateSpace.Model

/-!
# Systems of actors

A system of actors is a model. Its state holds the actors' states and the network; its actions deliver an envelope to its
receiver or, on a lossy network, drop it. Either consumes one copy of the envelope.

* `SystemState`, `NetAction`: states and actions.
* `ActorSystem`: actors, initial network, kind of network, properties and boundary.
* `ActorSystem.actionsOf`, `ActorSystem.nextOf`: enabled actions and where they lead.
* `ActorSystem.model`: the system as a model.
-/

namespace StateSpace

structure SystemState (τ μ : Type) where
  actors : List τ
  network : Network μ
  deriving DecidableEq, Repr

def SystemState.hash {τ μ : Type} [ToWord τ] [ToWord μ] (s : SystemState τ μ) : UInt64 :=
  Hash.combineAll (Hash.combineAll Hash.offset s.actors) s.network

/-- What can happen to an envelope. -/
inductive NetAction (μ : Type) where
  | deliver (e : Envelope μ)
  | drop (e : Envelope μ)
  deriving DecidableEq, Repr

structure ActorSystem (τ μ : Type) where
  actors : List (Actor τ μ)
  initNetwork : List (Envelope μ) := []
  lossy : Bool := false
  properties : List (Property (SystemState τ μ)) := []
  boundary : SystemState τ μ → Except Fault Bool := fun _ => .ok true
  showState : τ → String := fun _ => "<state>"
  showMsg : μ → String := fun _ => "<msg>"

namespace ActorSystem

variable {τ μ : Type}

/-- The initial state: what the actors send on starting joins the initial network. -/
def initial [Ord μ] (sys : ActorSystem τ μ) : SystemState τ μ where
  actors := sys.actors.map (·.start.state)
  network := sys.actors.zipIdx.foldl (fun n (a, id) => Network.post n id a.start.outputs) (.ofList sys.initNetwork)

def actionsOn (sys : ActorSystem τ μ) (e : Envelope μ) : List (NetAction μ) :=
  (if e.dst < sys.actors.length then [.deliver e] else []) ++ if sys.lossy then [.drop e] else []

/-- The enabled actions; several copies of an envelope count once. -/
def actionsOf [DecidableEq μ] (sys : ActorSystem τ μ) (s : SystemState τ μ) : List (NetAction μ) :=
  (Sorted.distinct s.network).flatMap sys.actionsOn

/-- The state after a delivery, if the receiver exists and accepts. -/
def deliver [Ord μ] [DecidableEq μ] (sys : ActorSystem τ μ) (s : SystemState τ μ) (e : Envelope μ) :
    Except Fault (Option (SystemState τ μ)) :=
  match sys.actors[e.dst]?, s.actors[e.dst]? with
  | some actor, some state => do
    match ← actor.advance state e.src e.msg with
    | none => return none
    | some r => return some ⟨s.actors.set e.dst r.state, Network.post (Network.remove s.network e) e.dst r.outputs⟩
  | _, _ => .ok none

/-- The state after an action. An envelope that is not in flight can be neither delivered nor dropped. -/
def nextOf [Ord μ] [DecidableEq μ] (sys : ActorSystem τ μ) (s : SystemState τ μ) :
    NetAction μ → Except Fault (Option (SystemState τ μ))
  | .deliver e => if e ∈ s.network then sys.deliver s e else .ok none
  | .drop e => if e ∈ s.network then .ok (some ⟨s.actors, Network.remove s.network e⟩) else .ok none

def formatAction (sys : ActorSystem τ μ) (a : NetAction μ) : String :=
  let line (verb : String) (e : Envelope μ) :=
    s!"{verb} \x7b src: {e.src}, dst: {e.dst}, msg: " ++ sys.showMsg e.msg ++ " \x7d"
  match a with
  | .deliver e => line "Deliver" e
  | .drop e => line "Drop" e

def formatState (sys : ActorSystem τ μ) (s : SystemState τ μ) : String :=
  let envelope (e : Envelope μ) := s!"{e.src}->{e.dst}: " ++ sys.showMsg e.msg
  "actor_states: [" ++ String.intercalate ", " (s.actors.map sys.showState) ++ "], network: \x7b" ++
    String.intercalate ", " (s.network.map envelope) ++ "\x7d"

def model [Ord μ] [DecidableEq μ] [ToWord τ] [ToWord μ] (sys : ActorSystem τ μ) :
    Model (SystemState τ μ) (NetAction μ) where
  initStates := [sys.initial]
  actions s := .ok (sys.actionsOf s)
  next := sys.nextOf
  properties := sys.properties
  withinBoundary := sys.boundary
  hash := SystemState.hash
  formatState := sys.formatState
  formatAction := sys.formatAction

end ActorSystem

end StateSpace
