import StateSpace.Actor.System
import StateSpace.Condition

/-!
# Actors given by rules

An actor that reacts by a table of rules: the first rule that matches the delivery decides.

* `Rule`, `RuleActor`: the table; `RuleActor.actor` is the actor.
* `SystemVariable`: what conditions on a system of actors can speak of.
-/

namespace StateSpace

/-- Messages to send: single ones, then one message to several actors. -/
structure Dispatch where
  send : List (ActorId × Int32) := []
  broadcast : Option (List ActorId × Int32) := none
  deriving DecidableEq, Repr

def Dispatch.outputs (d : Dispatch) : Outputs Int32 :=
  let sent := d.send.foldl (fun (o : Outputs Int32) (dst, msg) => o.send dst msg) []
  match d.broadcast with
  | none => sent
  | some (dsts, msg) => sent.broadcast dsts msg

structure Rule where
  state : Option Int32 := none
  msg : Option Int32 := none
  src : Option ActorId := none
  raise : Option String := none
  decline : Bool := false
  become : Option Int32 := none
  add : Option Int32 := none
  dispatch : Dispatch := {}
  /-- Answer the sender with the message plus this. -/
  reply : Option Int32 := none
  deriving DecidableEq, Repr

def Rule.fits (r : Rule) (state : Int32) (src : ActorId) (msg : Int32) : Bool :=
  r.state.all (· == state) && r.msg.all (· == msg) && r.src.all (· == src)

def Rule.apply (r : Rule) (state : Int32) (src : ActorId) (msg : Int32) :
    Except Fault (Option (Reaction Int32 Int32)) :=
  match r.raise with
  | some message => .error ⟨message⟩
  | none =>
    if r.decline then .ok none
    else
      let state := r.become.getD state + r.add.getD 0
      let outputs := match r.reply with
        | none => r.dispatch.outputs
        | some d => r.dispatch.outputs.send src (msg + d)
      .ok (some ⟨state, outputs⟩)

structure RuleActor where
  start : Int32 := 0
  dispatch : Dispatch := {}
  rules : List Rule := []
  deriving DecidableEq, Repr

/-- The actor of a table of rules; a delivery that no rule matches is declined. -/
def RuleActor.actor (a : RuleActor) : Actor Int32 Int32 where
  start := ⟨a.start, a.dispatch.outputs⟩
  advance state src msg :=
    match a.rules.find? (·.fits state src msg) with
    | none => .ok none
    | some r => r.apply state src msg

inductive SystemVariable where
  | actor (id : ActorId)
  | sum
  | max
  | inFlight
  deriving DecidableEq, Repr

/-- The value of a variable, given how states of actors are read as integers. -/
def SystemState.variable {τ μ : Type} (read : τ → Int) (s : SystemState τ μ) : SystemVariable → Int
  | .actor id => (s.actors[id]?.map read).getD 0
  | .sum => s.actors.foldl (fun acc a => acc + read a) 0
  | .max =>
    match s.actors.map read with
    | [] => 0
    | n :: ns => ns.foldl max n
  | .inFlight => s.network.length

end StateSpace
