import StateSpace.Console.Session
import StateSpace.Report
import StateSpace.Search.Run
import StateSpace.Systems.Clocks
import StateSpace.Systems.TwoPhaseCommit
import StateSpace.Wire.Codec

/-!
# Programs

Two programs that check a system and report on it.

* `ClockProgram`: two clocks that are to stay below a limit. The messages that lead to the limit are also shown in their
  wire form.
* `CommitProgram`: two-phase commit, checked depth first or explored by hand.

Each splits into the search and the text about it, so that the time the search took can be told.
-/

namespace StateSpace.Console

variable {σ α : Type}

def reportText (m : Model σ α) (elapsed : String) (s : Search σ α) : Except String String :=
  match s.fault with
  | some f => .error f.message
  | none => (s.report m elapsed).mapError Path.Error.message

/-- The transcript of a check: a report and more behind it, and exit code 1 if a property did not pass. -/
def checkTranscript (m : Model σ α) (elapsed : String) (more : Search σ α → Except String String) :
    Except Fault (Search σ α) → Transcript
  | .error f => .failed f.message
  | .ok s =>
    match reportText m elapsed s with
    | .error message => .failed message
    | .ok text =>
      match more s with
      | .error message => (Transcript.failed message).after text
      | .ok rest => ⟨if s.allPassed m then 0 else 1, text ++ rest, ""⟩

namespace ClockProgram

structure Request where
  limit : UInt32
  lossy : Bool
  deriving DecidableEq, Repr

def request : List String → Except NumeralError Request
  | [] => .ok ⟨3, false⟩
  | limit :: rest => do return ⟨(← readWord limit).toUInt32, rest.head? == some "lossy"⟩

def clocksOf (r : Request) : Model (SystemState UInt32 UInt32) (NetAction UInt32) := (twoClocks r.limit r.lossy).model

def search (r : Request) : Except Fault (Search (SystemState UInt32 UInt32) (NetAction UInt32)) :=
  Search.check (clocksOf r) { maxDepth := 100 }

def envelope : NetAction UInt32 → Envelope UInt32
  | .deliver e => e
  | .drop e => e

/-- An envelope with its message in wire form and read back. -/
def wireLine (e : Envelope UInt32) : Except Wire.Error String := do
  let bytes ← (Wire.Shape.uint32.serialize e.msg).mapError Wire.Error.type
  let decoded : UInt32 ← Wire.Shape.uint32.deserialize bytes
  return s!"  {e.src} -> {e.dst}: " ++ bytes.toText ++ s!" ({decoded})\n"

/-- The wire forms of the messages that lead to the limit. -/
def wireText (r : Request) (s : Search (SystemState UInt32 UInt32) (NetAction UInt32)) : Except String String := do
  match ← (s.discovery (clocksOf r) "less than limit").mapError Path.Error.message with
  | none => return ""
  | some path =>
    let lines ← (path.actions.mapM fun a => wireLine (envelope a)).mapError Wire.Error.message
    return "\nWire encoding of the delivered messages:\n" ++ String.join lines

def transcript (r : Request) (elapsed : String)
    (found : Except Fault (Search (SystemState UInt32 UInt32) (NetAction UInt32))) : Transcript :=
  (checkTranscript (clocksOf r) elapsed (wireText r) found).after
    (s!"=== Clock Actors ===\nChecking that both clocks stay below {r.limit}" ++
      (if r.lossy then " on a lossy network" else "") ++ "\n\n")

def run (args : List String) (elapsed : String) : Except NumeralError Transcript := do
  let r ← request args
  return transcript r elapsed (search r)

end ClockProgram

namespace CommitProgram

inductive Request where
  | check (rms : UInt64) (workers : UInt64)
  | explore (rms : UInt64)
  | usage
  deriving DecidableEq, Repr

/-- A number on the command line, or the usual one. -/
def numberAt (args : List String) (i : Nat) (usual : UInt64) : Except NumeralError UInt64 :=
  match args[i]? with
  | none => .ok usual
  | some text => readWord text

def request (args : List String) : Except NumeralError Request :=
  match args with
  | "check" :: rest => do return .check (← numberAt rest 0 7) (← numberAt rest 1 1)
  | "explore" :: rest => do return .explore (← numberAt rest 0 2)
  | _ => .ok .usage

def usage : String :=
  "Usage:\n  two_phase_commit check [rm_count] [threads]\n  two_phase_commit explore [rm_count]\n"

def search : Request → Except Fault (Search TwoPhase.State TwoPhase.Action)
  | .check rms workers => Search.check (TwoPhase.model rms.toNat) { workers := workers.toNat, order := .depthFirst }
  | .explore rms => Search.check (TwoPhase.model rms.toNat) {}
  | .usage => Search.check (TwoPhase.model 0) {}

/-- What the program writes when it explores by hand: `status n` is where the search stands in round `n` of the session. -/
def explored (rms : UInt64) (status : Nat → Search.Status) (lines : List String) : Transcript :=
  match Session.run (TwoPhase.model rms.toNat) (fun round => statusText (status round)) lines with
  | .error f => .failed f.message
  | .ok t => t

/-- What the program writes about a search that has ended, given the lines it reads. -/
def transcript (r : Request) (elapsed : String) (lines : List String)
    (found : Except Fault (Search TwoPhase.State TwoPhase.Action)) : Transcript :=
  match r with
  | .usage => ⟨0, usage, ""⟩
  | .check rms _ =>
    (checkTranscript (TwoPhase.model rms.toNat) elapsed (fun _ => .ok "") found).after
      s!"Checking two phase commit with {rms} resource managers.\n"
  | .explore rms =>
    let body : Transcript := match found with
      | .error f => .failed f.message
      | .ok s => explored rms (fun _ => s.status (TwoPhase.model rms.toNat)) lines
    body.after (s!"Exploring state space for two phase commit with {rms} resource managers.\n" ++
      "Commands: <n> follow edge n, b back, s status, q quit\n")

def run (args lines : List String) (elapsed : String) : Transcript :=
  match request args with
  | .error e => .failed e.message
  | .ok r => transcript r elapsed lines (search r)

end CommitProgram

end StateSpace.Console
