import StateSpace.Console.Numeral
import StateSpace.Explorer.Basic
import StateSpace.Search.Outcome

/-!
# Exploration sessions

A session steps through the states of a model on a console. It remembers nothing but a chain of fingerprints, and replays
the model along it before each command.

* `Transcript`: what a program writes, and its exit code.
* `Command`: what a line asks for.
* `Session.view`: the screen shown for a path.
* `Session.apply`: what a command does to the chain.
* `Session.run`: a session on given input lines.
-/

namespace StateSpace.Console

structure Transcript where
  exitCode : Nat
  out : String
  err : String
  deriving DecidableEq, Repr

def Transcript.after (t : Transcript) (text : String) : Transcript := { t with out := text ++ t.out }

def Transcript.failed (message : String) : Transcript := ⟨2, "", "Error: " ++ message ++ "\n"⟩

inductive Command where
  | quit
  | back
  | status
  | follow (edge : UInt64)
  | unknown (line : String)
  deriving DecidableEq, Repr

def Command.ofLine (line : String) : Command :=
  if line = "q" then .quit
  else if line = "b" then .back
  else if line = "s" then .status
  else
    match readWord line with
    | .ok n => .follow n
    | .error _ => .unknown line

/-- The lines of a text; a line feed at the end starts no further line. -/
def linesOf (text : String) : List String :=
  let lines := text.splitOn "\n"
  if lines.getLast? = some "" then lines.dropLast else lines

def statusText (s : Search.Status) : String :=
  s!"generated={s.generated} done=" ++ (if s.done then "yes" else "no") ++ " termination=" ++ s.termination.name ++
    "\n" ++ String.join (s.resolved.map fun name => "  discovered \"" ++ name ++ "\"\n")

namespace Session

variable {σ α : Type}

/-- The screen for a path: its fingerprints, its last state, and the edges that leave it. -/
def view (m : Model σ α) (path : Path σ α) (edges : List (Explorer.Edge σ α)) : String :=
  let fps := String.join ((path.fingerprints m).map fun fp => s!" {fp}")
  let edge : Explorer.Edge σ α × Nat → String := fun (e, i) =>
    s!"  [{i}] " ++ m.formatAction e.action ++ s!" -> {e.fp}\n"
  s!"\nPath ({path.size} states):" ++ fps ++ "\nState: " ++ m.formatState path.last ++ "\n" ++
    (if edges.isEmpty then "  (no successors)\n" else "") ++ String.join (edges.zipIdx.map edge)

/-- What a command does to the chain, and what it writes. -/
def apply (status : String) (edges : List (Explorer.Edge σ α)) (chain : List Fingerprint) :
    Command → List Fingerprint × String
  | .quit => (chain, "")
  | .back => (if chain.length > 1 then chain.dropLast else chain, "")
  | .status => (chain, status)
  | .unknown line => (chain, "Unknown command: " ++ line ++ "\n")
  | .follow n =>
    match edges[n.toNat]? with
    | none => (chain, s!"No edge {n}\n")
    | some e => (chain ++ [e.fp], "")

/-- A session from a chain on: a screen and a prompt, then a command, as long as there are lines. The search may still be
running, so its status is asked for anew each time; `status n` is the answer at the screen of round `n`. -/
def runFrom (m : Model σ α) (status : Nat → String) :
    Nat → List String → List Fingerprint → Except Fault Transcript
  | round, lines, chain => do
    match ← Path.replay m chain with
    | none => return ⟨1, "", "Could not resolve the current path.\n"⟩
    | some path =>
      let edges ← Explorer.edges m path.last
      let screen := view m path edges ++ "> "
      match lines with
      | [] => return ⟨0, screen ++ status round, ""⟩
      | line :: rest =>
        match Command.ofLine line with
        | .quit => return ⟨0, screen ++ status round, ""⟩
        | command =>
          let (chain, text) := apply (status round) edges chain command
          return (← runFrom m status (round + 1) rest chain).after (screen ++ text)

def run (m : Model σ α) (status : Nat → String) (lines : List String) : Except Fault Transcript :=
  match Explorer.roots m with
  | [] => .ok ⟨0, "Model has no initial states.\n", ""⟩
  | root :: _ => runFrom m status 0 lines [root.fp]

end Session

end StateSpace.Console
