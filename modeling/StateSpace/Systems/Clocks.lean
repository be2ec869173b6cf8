import StateSpace.Actor.System

/-!
# Clock actors

Each clock keeps the greatest timestamp it has seen. It adopts a newer one and answers the sender with the timestamp after
it, modulo `2 ^ 32`; it declines older ones.

* `clock`: the actor.
* `clocks`: a system of clocks.
* `twoClocks`: two clocks, of which the second has sent timestamp 1 to the first, and the property that both stay below a
  limit.
-/

namespace StateSpace

def clock : Actor UInt32 UInt32 where
  start := ⟨0, []⟩
  advance state src msg := .ok (if msg ≤ state then none else some ⟨msg, [⟨src, msg + 1⟩]⟩)

def clocks (count : Nat) : ActorSystem UInt32 UInt32 where
  actors := List.replicate count clock
  showState := toString
  showMsg := toString

def belowLimit (limit : UInt32) : Property (SystemState UInt32 UInt32) where
  name := "less than limit"
  expectation := .always
  condition s := .ok (s.actors.all (· < limit))

/-- Two clocks that are to stay below a limit. -/
def twoClocks (limit : UInt32) (lossy : Bool) : ActorSystem UInt32 UInt32 :=
  { clocks 2 with
    initNetwork := [⟨1, 0, 1⟩]
    lossy := lossy
    properties := [belowLimit limit] }

end StateSpace
