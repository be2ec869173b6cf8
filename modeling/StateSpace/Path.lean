import StateSpace.Model
import StateSpace.Registry.Basic

/-!
# Paths

A `Path` is an initial state followed by steps. A search records for each fingerprint the fingerprint it was reached
from; a path is rebuilt by following these links back and replaying the model forwards.

* `Path.replay`: the run along a chain of fingerprints; each fingerprint selects the first enabled action that leads
  to a state with it.
* `Predecessors`: the links; an initial state's fingerprint is linked to itself.
* `Path.ancestry`: the chain from a root to a fingerprint.
* `Path.reconstruct`: the run to a fingerprint.
-/

namespace StateSpace

/-- An initial state and the steps from it. -/
structure Path (σ α : Type) where
  init : σ
  steps : List (α × σ)
  deriving DecidableEq, Repr

/-- For each fingerprint the one it was reached from. -/
abbrev Predecessors := Registry Fingerprint Fingerprint Hash.noFingerprint

namespace Path

variable {σ α : Type}

def single (s : σ) : Path σ α := ⟨s, []⟩

def push (p : Path σ α) (a : α) (s : σ) : Path σ α := ⟨p.init, p.steps ++ [(a, s)]⟩

def last (p : Path σ α) : σ := (p.steps.getLast?.map Prod.snd).getD p.init

def size (p : Path σ α) : Nat := p.steps.length + 1

def states (p : Path σ α) : List σ := p.init :: p.steps.map Prod.snd

def actions (p : Path σ α) : List α := p.steps.map Prod.fst

def fingerprints (m : Model σ α) (p : Path σ α) : List Fingerprint := p.states.map m.fingerprint

/-- One line for each state and each action, the latter behind an arrow. -/
def render (m : Model σ α) (indent : String) (p : Path σ α) : String :=
  indent ++ m.formatState p.init ++ "\n" ++ String.join (p.steps.map fun (a, s) =>
    indent ++ "-> " ++ m.formatAction a ++ "\n" ++ indent ++ m.formatState s ++ "\n")

/-! ## Replay -/

/-- The first of the given actions that leads from `s` to a state with the fingerprint. -/
def selectStep (m : Model σ α) (s : σ) (fp : Fingerprint) : List α → Except Fault (Option (α × σ))
  | [] => .ok none
  | a :: as => do
    match ← m.next s a with
    | none => selectStep m s fp as
    | some t => if m.fingerprint t = fp then return some (a, t) else selectStep m s fp as

/-- The steps from `s` along a chain of fingerprints. -/
def follow (m : Model σ α) (s : σ) : List Fingerprint → Except Fault (Option (List (α × σ)))
  | [] => .ok (some [])
  | fp :: fps => do
    match ← selectStep m s fp (← m.actions s) with
    | none => return none
    | some (a, t) => return (← follow m t fps).map ((a, t) :: ·)

/-- The run along a chain of fingerprints, of which the first selects the initial state. -/
def replay (m : Model σ α) : List Fingerprint → Except Fault (Option (Path σ α))
  | [] => .ok none
  | fp :: fps =>
    match m.initStates.find? (m.fingerprint · = fp) with
    | none => .ok none
    | some s => do return (← follow m s fps).map (Path.mk s)

/-! ## Reconstruction -/

inductive Error where
  | notARun (length : Nat)
  | cycle (fp : Fingerprint)
  | unknown (fp : Fingerprint)
  | fault (f : Fault)
  deriving DecidableEq, Repr

def Error.message : Error → String
  | .notARun length =>
    s!"Path reconstruction failed: fingerprint chain of length {length} is not a run of the model"
  | .cycle fp => s!"Path reconstruction failed: predecessor cycle at fingerprint {fp}"
  | .unknown fp => s!"Path reconstruction failed: unknown fingerprint {fp}"
  | .fault f => f.message

/-- The run along a chain of fingerprints, which has to exist. -/
def ofFingerprints (m : Model σ α) (fps : List Fingerprint) : Except Error (Path σ α) :=
  match replay m fps with
  | .error f => .error (.fault f)
  | .ok none => .error (.notARun fps.length)
  | .ok (some p) => .ok p

/-- Follows links from `current` back to a root. `seen` holds the fingerprints passed so far, the latest first. Each
of them is a different key of the registry, so `fuel` bounds the walk if it exceeds the number of keys. -/
def ancestryFrom (links : Predecessors) :
    (fuel : Nat) → (seen : List Fingerprint) → (current : Fingerprint) → Except Error (List Fingerprint)
  | 0, _, current => .error (.cycle current)
  | fuel + 1, seen, current =>
    if current ∈ seen then .error (.cycle current)
    else
      match links.lookup current with
      | none => .error (.unknown current)
      | some parent =>
        if parent = current then .ok (current :: seen) else ancestryFrom links fuel (current :: seen) parent

def ancestry (links : Predecessors) (target : Fingerprint) : Except Error (List Fingerprint) :=
  ancestryFrom links (links.size + 1) [] target

def reconstruct (m : Model σ α) (links : Predecessors) (target : Fingerprint) : Except Error (Path σ α) := do
  ofFingerprints m (← ancestry links target)

end Path

end StateSpace
