import StateSpace.Discoveries
import StateSpace.Frontier.Basic
import StateSpace.Path

/-!
# Searches

A search explores the states of a model with a pool of workers. What they share is a registry of fingerprints, a
frontier of entries to expand, and the discoveries; a worker that registers a fingerprint first owns its state, and it
alone evaluates the properties on it and pushes it.

* `Config`: bounds, order, number of workers and the visitor.
* `Entry`: a registered state with its fingerprint and depth.
* `Phase`: what a worker does next.
* `Search`: the whole state of a search, and what can be read off it at any time: `Search.generated`, `Search.done`,
  `Search.exhausted`, `Search.termination`.
-/

namespace StateSpace

/-- How to search. A bound of zero is no bound. -/
structure Config (σ : Type) where
  workers : Nat := 1
  order : SearchOrder := .breadthFirst
  /-- Stop once this many states are registered. -/
  maxStates : Nat := 0
  /-- Do not expand states this deep; initial states have depth 1. -/
  maxDepth : Nat := 0
  /-- Stop at the first violation. -/
  stopOnViolation : Bool := true
  /-- Called with the number of the call for each state that is expanded. -/
  visitor : Nat → σ → Fingerprint → Except Fault Unit := fun _ _ _ => .ok ()

structure Entry (σ : Type) where
  state : σ
  fp : Fingerprint
  depth : Nat
  deriving DecidableEq, Repr

inductive StopReason where
  | boundReached
  | stopped
  | error
  deriving DecidableEq, Repr

inductive Termination where
  | running
  | exhausted
  | boundReached
  | stopped
  | error
  deriving DecidableEq, Repr

def Termination.name : Termination → String
  | .running => "Running"
  | .exhausted => "Exhausted"
  | .boundReached => "BoundReached"
  | .stopped => "Stopped"
  | .error => "Error"

def Termination.code : Termination → Nat
  | .running => 0
  | .exhausted => 1
  | .boundReached => 2
  | .stopped => 3
  | .error => 4

def Termination.ofCode? : Int → Option Termination
  | 0 => some .running
  | 1 => some .exhausted
  | 2 => some .boundReached
  | 3 => some .stopped
  | 4 => some .error
  | _ => none

/-- The name of the termination with a number; numbers without a termination share one. -/
def Termination.nameOfCode (code : Int) : String := ((ofCode? code).map name).getD "Unknown"

/-- The termination that a reason to stop announces. -/
def StopReason.termination : StopReason → Termination
  | .boundReached => .boundReached
  | .stopped => .stopped
  | .error => .error

/-- What a worker does next. Between two phases other workers may act. -/
inductive Phase (σ α : Type) where
  /-- Report for work. -/
  | starting
  /-- Take an entry. -/
  | idle
  /-- Try again to take an entry: there was none, but more may come. -/
  | waiting
  /-- Count the entry as expanded. -/
  | visiting (entry : Entry σ)
  /-- Show the entry to the visitor, which is called for the given time. -/
  | showing (entry : Entry σ) (call : Nat)
  /-- Enumerate the actions of the entry. -/
  | opening (entry : Entry σ)
  /-- Perform the next action and register the state it leads to, or complete the entry. -/
  | acting (entry : Entry σ) (todo : List α)
  /-- Evaluate the properties on a state just registered. -/
  | judging (entry child : Entry σ) (todo : List α)
  /-- Decide whether what was found is a reason to stop. -/
  | noting (entry child : Entry σ) (todo : List α) (findings : Findings)
  /-- Push the state just registered. -/
  | pushing (entry child : Entry σ) (todo : List α)
  /-- Nothing any more. -/
  | finished

def Phase.isFinished {σ α : Type} : Phase σ α → Bool
  | .finished => true
  | _ => false

/-- A bound on the steps that remain before the last action is dealt with. -/
def Phase.work {σ α : Type} : Phase σ α → Nat
  | .acting _ todo => 4 * todo.length
  | .judging _ _ todo => 4 * todo.length + 3
  | .noting _ _ todo _ => 4 * todo.length + 2
  | .pushing _ _ todo => 4 * todo.length + 1
  | _ => 0

structure Search (σ α : Type) where
  registry : Predecessors
  frontier : Frontier (Entry σ)
  discoveries : Discoveries
  workers : List (Phase σ α)
  /-- The first reason to stop. -/
  stopReason : Option StopReason
  /-- An entry was not expanded because of its depth. -/
  depthLimited : Bool
  /-- The first fault raised in a worker. -/
  fault : Option Fault
  /-- How many entries were visited. -/
  expanded : Nat
  /-- How many actions were enumerated. -/
  actionCount : Nat
  /-- The greatest depth of a visited entry. -/
  maxDepth : Nat
  /-- The visited states and their fingerprints, the latest first. Each is shown to the visitor in its worker's next step. -/
  visits : List (σ × Fingerprint)
  /-- The diagnostic lines, the latest first. -/
  records : List Log.Record

namespace Search

variable {σ α : Type}

def phase (s : Search σ α) (worker : Nat) : Phase σ α := s.workers[worker]?.getD .finished

def generated (s : Search σ α) : Nat := s.registry.size

def done (s : Search σ α) : Bool := s.workers.all Phase.isFinished

/-- The search is over and every registered state was expanded. -/
def exhausted (s : Search σ α) : Bool := s.done && s.frontier.exhausted && !s.depthLimited

def termination (s : Search σ α) : Termination :=
  if !s.done then .running
  else if s.fault.isSome then .error
  else if s.stopReason = some .stopped then .stopped
  else if s.exhausted then .exhausted
  else .boundReached

def visitList (s : Search σ α) : List (σ × Fingerprint) := s.visits.reverse

def lines (s : Search σ α) : List String := s.records.reverse.map Log.Record.line

def blank (m : Model σ α) (cfg : Config σ) : Search σ α where
  registry := .empty
  frontier := .new cfg.workers cfg.order
  discoveries := .none m.properties.length
  workers := List.replicate (max cfg.workers 1) .starting
  stopReason := none
  depthLimited := false
  fault := none
  expanded := 0
  actionCount := 0
  maxDepth := 0
  visits := []
  records := []

end Search

end StateSpace
