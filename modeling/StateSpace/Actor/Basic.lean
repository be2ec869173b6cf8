import StateSpace.Property

/-!
# Actors

An actor reacts to the delivery of a message by a new state and messages to send. It never acts on its own.

* `Output`: a message to send; `Outputs.send`, `Outputs.broadcast` collect them.
* `Reaction`: a state and what is sent.
* `Actor`: the initial reaction, and the reaction to a delivery, which may also be declined.
-/

namespace StateSpace

/-- The index of an actor in its system. -/
abbrev ActorId := Nat

structure Output (μ : Type) where
  dst : ActorId
  msg : μ
  deriving DecidableEq, Repr

abbrev Outputs (μ : Type) := List (Output μ)

namespace Outputs

variable {μ : Type}

def send (outputs : Outputs μ) (dst : ActorId) (msg : μ) : Outputs μ := outputs ++ [⟨dst, msg⟩]

def broadcast (outputs : Outputs μ) (dsts : List ActorId) (msg : μ) : Outputs μ :=
  outputs ++ dsts.map fun dst => ⟨dst, msg⟩

end Outputs

/-- A state and the messages sent on entering it. -/
structure Reaction (τ μ : Type) where
  state : τ
  outputs : Outputs μ
  deriving DecidableEq, Repr

/-- An actor with states `τ` and messages `μ`. -/
structure Actor (τ μ : Type) where
  start : Reaction τ μ
  /-- The reaction to a delivery; a message may be declined. -/
  advance : (state : τ) → (src : ActorId) → (msg : μ) → Except Fault (Option (Reaction τ μ))

end StateSpace
