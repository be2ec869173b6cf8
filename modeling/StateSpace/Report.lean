import StateSpace.Search.Outcome

/-!
# Reports

`Search.report` is the text of a search's result: the counters, and each property with its verdict and the run that
resolves it.
-/

namespace StateSpace.Search

variable {σ α : Type}

def PropertyOutcome.render (m : Model σ α) (f : PropertyOutcome σ α) : String :=
  "Property \"" ++ f.name ++ "\" (" ++ f.expectation.name ++ "): " ++ f.verdict.name ++ "\n" ++
    match f.path with
    | none => ""
    | some path =>
      let kind := match f.expectation with
        | .always => "counterexample"
        | .sometimes => "example"
      let steps := path.steps.length
      "Discovered \"" ++ f.name ++ "\" " ++ kind ++ s!" Path[{steps}]:\n" ++ path.render m "  "

/-- The report of a search that took the given number of milliseconds. -/
def report (m : Model σ α) (elapsed : String) (s : Search σ α) : Except Path.Error String := do
  let outcomes ← s.verdicts m
  return "Done. states=" ++ toString s.generated ++ ", max_depth=" ++ toString s.maxDepth ++ ", termination=" ++
    s.termination.name ++ ", ms=" ++ elapsed ++ "\n" ++ String.join (outcomes.map (PropertyOutcome.render m))

end StateSpace.Search
