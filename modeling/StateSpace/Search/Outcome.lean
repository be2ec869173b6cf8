import StateSpace.Search.Basic

/-!
# What a search has found

These can be asked at any time; until the search is over, properties without a discovery are inconclusive.

* `Search.verdicts`: each property with its verdict and the run that resolves it.
* `Search.allPassed`, `Search.unmet`: whether every property passed, and which did not.
* `Search.discovery`, `Search.discoveries`: the run that resolves a property, by name.
* `Search.status`: the counters and the names of the resolved properties.
-/

namespace StateSpace.Search

variable {σ α : Type}

/-- A property's verdict, with the run that resolves it. -/
structure PropertyOutcome (σ α : Type) where
  name : String
  expectation : Expectation
  verdict : Verdict
  path : Option (Path σ α)

def judgements (m : Model σ α) (s : Search σ α) : List (Property σ × Verdict) :=
  m.properties.zipIdx.map fun (p, i) => (p, s.discoveries.verdict i p.expectation s.exhausted)

def discoveryAt (m : Model σ α) (s : Search σ α) (i : Nat) : Except Path.Error (Option (Path σ α)) :=
  match s.discoveries.get? i with
  | none => .ok none
  | some fp => some <$> Path.reconstruct m s.registry fp

def verdicts (m : Model σ α) (s : Search σ α) : Except Path.Error (List (PropertyOutcome σ α)) :=
  (s.judgements m).zipIdx.mapM fun ((p, v), i) => do
    return ⟨p.name, p.expectation, v, ← s.discoveryAt m i⟩

def allPassed (m : Model σ α) (s : Search σ α) : Bool := (s.judgements m).all fun (_, v) => v = .passed

/-- The complaint about the properties that did not pass, if there are any. -/
def unmet (m : Model σ α) (s : Search σ α) : Option String :=
  match (s.judgements m).filter fun (_, v) => v ≠ .passed with
  | [] => none
  | failures =>
    let complaint : Property σ × Verdict → String := fun (p, v) =>
      "\"" ++ p.name ++ "\"" ++ if v = .failed then " failed" else " inconclusive"
    some ("Properties did not pass: " ++ String.intercalate ", " (failures.map complaint))

/-- The run that resolves the first property with a name. -/
def discovery (m : Model σ α) (s : Search σ α) (name : String) : Except Path.Error (Option (Path σ α)) :=
  match findProperty? m.properties name with
  | none => .ok none
  | some i => s.discoveryAt m i

/-- Adds a binding to a list that is sorted by name, unless the name is bound. -/
def bindSorted {β : Type} (name : String) (x : β) : List (String × β) → List (String × β)
  | [] => [(name, x)]
  | (n, y) :: rest =>
    if name < n then (name, x) :: (n, y) :: rest
    else if name = n then (n, y) :: rest
    else (n, y) :: bindSorted name x rest

/-- The runs that resolve properties, by name and sorted by it; of several properties with one name the first that
is resolved counts. -/
def discoveries? (m : Model σ α) (s : Search σ α) : Except Path.Error (List (String × Path σ α)) :=
  m.properties.zipIdx.foldlM (fun bound (p, i) => do
    match ← s.discoveryAt m i with
    | none => return bound
    | some path => return bindSorted p.name path bound) []

structure Status where
  generated : Nat
  done : Bool
  termination : Termination
  resolved : List String
  deriving DecidableEq, Repr

def status (m : Model σ α) (s : Search σ α) : Status where
  generated := s.generated
  done := s.done
  termination := s.termination
  resolved := m.properties.zipIdx.filterMap fun (p, i) => (s.discoveries.get? i).map fun _ => p.name

end StateSpace.Search
