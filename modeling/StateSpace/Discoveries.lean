import StateSpace.Log

/-!
# Discoveries

A search evaluates the properties of a model on every new state. The discovery of a property is the fingerprint of the
first state that resolves it; a resolved property is not evaluated again.

* `Discoveries`: for each property its discovery, and how many were made.
* `Discoveries.settle`: records a discovery unless there is one, the step that decides between competing workers.
* `Discoveries.evaluate`: every property on one state.
-/

namespace StateSpace

/-- The discovery of each property, `0` where there is none, and the number of discoveries made. -/
structure Discoveries where
  slots : List Fingerprint
  count : Nat
  deriving DecidableEq, Repr

/-- What evaluating one state found: `always` properties newly violated and `sometimes` properties newly witnessed. -/
structure Findings where
  violations : Nat
  witnesses : Nat
  deriving DecidableEq, Repr

namespace Discoveries

def none (properties : Nat) : Discoveries := ⟨List.replicate properties Hash.noFingerprint, 0⟩

def slot (d : Discoveries) (i : Nat) : Fingerprint := d.slots[i]?.getD Hash.noFingerprint

def get? (d : Discoveries) (i : Nat) : Option Fingerprint :=
  if d.slot i = Hash.noFingerprint then Option.none else some (d.slot i)

/-- Every property of a non-empty list is counted as discovered. -/
def complete (d : Discoveries) : Bool := !d.slots.isEmpty && d.count == d.slots.length

/-- Stores a discovery if there is none yet, and tells whether it did. -/
def exchange (d : Discoveries) (i : Nat) (fp : Fingerprint) : Bool × Discoveries :=
  if d.slot i = Hash.noFingerprint then (true, { d with slots := d.slots.set i fp }) else (false, d)

def tally (d : Discoveries) : Discoveries := { d with count := d.count + 1 }

/-- Stores and counts a discovery if there is none yet, and tells whether it did. -/
def settle (d : Discoveries) (i : Nat) (fp : Fingerprint) : Bool × Discoveries :=
  match d.exchange i fp with
  | (true, d) => (true, d.tally)
  | (false, d) => (false, d)

/-- An evaluation under way: the discoveries so far, what was found, what is to be logged (latest first), and the fault
that ended it. -/
structure Evaluation where
  discoveries : Discoveries
  findings : Findings
  messages : List Log.Message
  fault : Option Fault
  deriving DecidableEq, Repr

def Evaluation.found (e : Evaluation) (expectation : Expectation) (message : Log.Message) : Evaluation :=
  { e with
    findings := match expectation with
      | .always => { e.findings with violations := e.findings.violations + 1 }
      | .sometimes => { e.findings with witnesses := e.findings.witnesses + 1 }
    messages := message :: e.messages }

variable {σ : Type}

/-- Evaluates one property, unless it is resolved already. -/
def evaluateOne (state : σ) (fp : Fingerprint) (e : Evaluation) (p : Property σ) (i : Nat) : Evaluation :=
  if e.discoveries.slot i ≠ Hash.noFingerprint then e
  else
    match p.condition state with
    | .error f => { e with fault := some f }
    | .ok holds =>
      if p.expectation.resolvedBy holds then
        match e.discoveries.settle i fp with
        | (true, d) => { e with discoveries := d }.found p.expectation (.resolved p.name p.expectation fp)
        | (false, d) => { e with discoveries := d }
      else e

/-- Evaluates properties in order, up to the first whose condition raises a fault. -/
def evaluateFrom (state : σ) (fp : Fingerprint) : List (Property σ × Nat) → Evaluation → Evaluation
  | [], e => e
  | (p, i) :: rest, e =>
    let e := evaluateOne state fp e p i
    if e.fault.isSome then e else evaluateFrom state fp rest e

def evaluate (d : Discoveries) (properties : List (Property σ)) (state : σ) (fp : Fingerprint) : Evaluation :=
  evaluateFrom state fp properties.zipIdx ⟨d, ⟨0, 0⟩, [], Option.none⟩

def verdict (d : Discoveries) (i : Nat) (expectation : Expectation) (exhausted : Bool) : Verdict :=
  classify expectation (d.get? i).isSome exhausted

end Discoveries

def findProperty? {σ : Type} (properties : List (Property σ)) (name : String) : Option Nat :=
  properties.findIdx? (·.name == name)

end StateSpace
