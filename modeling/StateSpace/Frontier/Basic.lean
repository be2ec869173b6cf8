import StateSpace.Frontier.Deque

/-!
# Frontiers

The entries that wait to be expanded. Every worker owns a deque; a worker whose deque is empty takes the older half of
another's. The number of pending entries, those pushed and not yet completed, tells when the search is over.

* `SearchOrder`: whether a worker takes its oldest or its newest entry first.
* `Frontier.seed`, `Frontier.push`, `Frontier.complete`, `Frontier.requestStop`.
* `Frontier.pop`: the next entry for a worker, or that there is none to come, or that the worker has to wait.

`push` is `announce` and then `append`; `pop` is `takeLocal`, else `grab` from a victim and `deposit`. These are the
steps between which other workers may act.
-/

namespace StateSpace

/-- Which of its entries a worker takes first. -/
inductive SearchOrder where
  | breadthFirst
  | depthFirst
  deriving DecidableEq, Repr

structure Frontier (α : Type) where
  order : SearchOrder
  deques : List (Deque α)
  seeded : Nat
  pending : UInt64
  stopRequested : Bool
  stolen : Nat

namespace Frontier

inductive PushError where
  | invalidWorker
  deriving DecidableEq, Repr

def PushError.message : PushError → String
  | .invalidWorker => "Frontier: invalid worker ID"

inductive Popped (α : Type) where
  | entry (x : α)
  | over
  | waiting
  deriving DecidableEq, Repr

structure Theft where
  thief : Nat
  victim : Nat
  count : Nat
  deriving DecidableEq, Repr

variable {α : Type}

/-- A frontier with no entries; there is always at least one worker. -/
def new (workers : Nat) (order : SearchOrder) : Frontier α :=
  ⟨order, List.replicate (max workers 1) .empty, 0, 0, false, 0⟩

def workers (f : Frontier α) : Nat := f.deques.length

def queued (f : Frontier α) (worker : Nat) : List α := (f.deques[worker]?.getD .empty).toList

def exhausted (f : Frontier α) : Bool := f.pending == 0

/-! ## Pushing -/

/-- Counts an entry that is about to be appended. -/
def announce (f : Frontier α) : Frontier α := { f with pending := f.pending + 1 }

def append (f : Frontier α) (worker : Nat) (x : α) : Frontier α :=
  { f with deques := f.deques.modify worker (·.push x) }

def push (f : Frontier α) (worker : Nat) (x : α) : Except PushError (Frontier α) :=
  if worker < f.workers then .ok (f.announce.append worker x) else .error .invalidWorker

/-- Gives an entry to the workers in turn. -/
def seed (f : Frontier α) (x : α) : Frontier α :=
  { f.announce.append (f.seeded % f.workers) x with seeded := f.seeded + 1 }

/-- Marks one popped entry as done. -/
def complete (f : Frontier α) : Frontier α := { f with pending := f.pending - 1 }

/-- Makes every later pop answer that the search is over. -/
def requestStop (f : Frontier α) : Frontier α := { f with stopRequested := true }

/-! ## Popping -/

def takeLocal (f : Frontier α) (worker : Nat) : Option (α × Frontier α) := do
  let d ← f.deques[worker]?
  let (x, d) ← match f.order with
    | .breadthFirst => d.popOldest?
    | .depthFirst => d.popNewest?
  return (x, { f with deques := f.deques.set worker d })

def victims (f : Frontier α) (worker : Nat) : List Nat :=
  (List.range f.workers).filter fun v => v != worker && !(f.queued v).isEmpty

/-- Takes the older half of a victim's entries, at least one. -/
def grab (f : Frontier α) (victim : Nat) : List α × Frontier α :=
  let d := f.deques[victim]?.getD .empty
  let (taken, d) := d.splitOldest (max 1 (d.toList.length / 2))
  (taken, { f with deques := f.deques.set victim d })

/-- Puts grabbed entries onto the thief's deque. -/
def deposit (f : Frontier α) (thief : Nat) (taken : List α) : Frontier α :=
  { f with deques := f.deques.modify thief (·.pushAll taken), stolen := f.stolen + taken.length }

/-- The next entry for a worker. If its deque is empty, `pick` chooses among the victims, and the theft is told. -/
def pop (f : Frontier α) (worker : Nat) (pick : Nat) : Popped α × Option Theft × Frontier α :=
  if f.stopRequested then (.over, none, f)
  else
    match f.takeLocal worker with
    | some (x, f) => (.entry x, none, f)
    | none =>
      let vs := f.victims worker
      match vs[pick % vs.length]? with
      | none => (if f.exhausted then .over else .waiting, none, f)
      | some victim =>
        let (taken, f) := f.grab victim
        let f := f.deposit worker taken
        let theft := some ⟨worker, victim, taken.length⟩
        match f.takeLocal worker with
        | some (x, f) => (.entry x, theft, f)
        | none => (.waiting, theft, f)

end Frontier

end StateSpace
