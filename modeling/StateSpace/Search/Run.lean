import StateSpace.Search.Step

/-!
# Running a search

One schedule of a search: the workers run one after another, each until it ends. With one worker this is the only
schedule there is; with several, whatever does not depend on the schedule is the same as for any other.

* `Search.turn`: a step of a worker, and with it all steps on the actions it enumerates.
* `Search.runWorker`: a worker up to its end, or up to a moment of interest.
* `Search.run`: all workers.
* `Search.check`: a search from its seeding to its end.
-/

namespace StateSpace.Search

variable {σ α : Type}

def actAll (m : Model σ α) (cfg : Config σ) (worker : Nat) : (fuel : Nat) → Search σ α → Search σ α
  | 0, s => s
  | fuel + 1, s =>
    if (s.phase worker).work = 0 then s else actAll m cfg worker fuel (s.step m cfg worker 0)

/-- A step of a worker, and with it all steps on the actions it enumerates. -/
def turn (m : Model σ α) (cfg : Config σ) (worker : Nat) (s : Search σ α) : Search σ α :=
  let s := s.step m cfg worker 0
  actAll m cfg worker (s.phase worker).work s

/-- A worker that has finished, or has to wait for others, takes no turns by itself. -/
def rests (s : Search σ α) (worker : Nat) : Bool :=
  match s.phase worker with
  | .finished | .waiting => true
  | _ => false

/-- A worker takes five turns for an entry and two more at its start and end, and it takes an entry for each registered
fingerprint at most, of which there are fewer than words. -/
def turnLimit : Nat := 5 * wordCount + 2

/-- Turns of a worker until it rests or a moment of interest comes. -/
def runWorker (m : Model σ α) (cfg : Config σ) (pause : Search σ α → Bool) (worker : Nat) :
    (fuel : Nat) → Search σ α → Search σ α
  | 0, s => s
  | fuel + 1, s =>
    if s.rests worker || pause s then s else runWorker m cfg pause worker fuel (s.turn m cfg worker)

def runUntil (m : Model σ α) (cfg : Config σ) (pause : Search σ α → Bool) (s : Search σ α) : Search σ α :=
  runWorker m cfg pause 0 turnLimit s

def run (m : Model σ α) (cfg : Config σ) (s : Search σ α) : Search σ α :=
  (List.range s.workers.length).foldl (fun s worker => runWorker m cfg (fun _ => false) worker turnLimit s) s

/-- A search from its seeding to its end, or the fault that kept it from starting. -/
def check (m : Model σ α) (cfg : Config σ) : Except Fault (Search σ α) :=
  match seed m cfg with
  | (.error f, _) => .error f
  | (.ok (), s) => .ok (s.run m cfg)

end StateSpace.Search
