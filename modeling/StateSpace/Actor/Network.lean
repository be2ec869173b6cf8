import StateSpace.Actor.Basic
import StateSpace.Hash
import StateSpace.Sorted

/-!
# Networks

* `Envelope`: a message in flight, ordered by sender, receiver and message.
* `Network`: the envelopes in flight, a multiset kept as a sorted list.
* `Network.remove`, `Network.post`: consuming one copy of an envelope, and sending.

An envelope is looked for by equality. Where messages are linearly ordered, searching by the order finds the same.
-/

namespace StateSpace

structure Envelope (μ : Type) where
  src : ActorId
  dst : ActorId
  msg : μ
  deriving DecidableEq, Repr

/-- Envelopes are ordered by sender, then receiver, then message. -/
instance {μ : Type} [Ord μ] : Ord (Envelope μ) where
  compare a b := ((compare a.src b.src).then (compare a.dst b.dst)).then (compare a.msg b.msg)

def Envelope.hash {μ : Type} [ToWord μ] (e : Envelope μ) : UInt64 :=
  Hash.combine (Hash.combine (Hash.combine Hash.offset e.src) e.dst) e.msg

instance {μ : Type} [ToWord μ] : ToWord (Envelope μ) := ⟨Envelope.hash⟩

/-- The envelopes in flight, sorted. -/
abbrev Network (μ : Type) := List (Envelope μ)

namespace Network

variable {μ : Type}

def ofList [Ord μ] (envelopes : List (Envelope μ)) : Network μ := Sorted.ofList envelopes

/-- Takes one copy of an envelope out. -/
def remove [DecidableEq μ] (n : Network μ) (e : Envelope μ) : Network μ := n.erase e

def post [Ord μ] (n : Network μ) (src : ActorId) (outputs : Outputs μ) : Network μ :=
  Sorted.insertAll (outputs.map fun o => ⟨src, o.dst, o.msg⟩) n

end Network

end StateSpace
