import StateSpace.Search.Basic

/-!
# The steps of a search

A search advances by atomic steps of its workers. `Search.step` performs the next step of one worker; any order in which
the workers take their steps is a run of the search.

* `Search.stop`: the first reason to stop is kept, and later pops find nothing.
* `Search.register`, `Search.judge`, `Search.note`, `Search.give`: what is done with a new state.
* `Search.seed`: registers the initial states before the workers start.
* `Search.step`, `Search.cancel`: the steps of workers and of the thread that watches them.
* `Move`, `Search.play`: a run as a list of steps.
-/

namespace StateSpace

namespace Search

variable {σ α : Type}

def record (s : Search σ α) (channel : Log.Channel) (speaker : Log.Speaker) (message : Log.Message) : Search σ α :=
  { s with records := ⟨channel, speaker, message⟩ :: s.records }

def setPhase (s : Search σ α) (worker : Nat) (phase : Phase σ α) : Search σ α :=
  { s with workers := s.workers.set worker phase }

/-- Tells the workers to stop. The first reason is kept and reported. -/
def stop (s : Search σ α) (speaker : Log.Speaker) (reason : StopReason) : Search σ α :=
  let s := match s.stopReason with
    | some _ => s
    | none => { s with stopReason := some reason }.record .checker speaker (.stopRequested reason.termination.code)
  { s with frontier := s.frontier.requestStop }

def register (s : Search σ α) (fp parent : Fingerprint) : Except Fault Bool × Search σ α :=
  let (outcome, registry) := s.registry.insertIfAbsent fp parent
  let s := { s with registry }
  match outcome with
  | .error e => (.error ⟨e.message⟩, s)
  | .ok outcome => (.ok outcome.inserted, s)

/-- Evaluates the properties on a new state, and tells what was found or which fault was raised. -/
def judge (m : Model σ α) (speaker : Log.Speaker) (state : σ) (fp : Fingerprint) (s : Search σ α) :
    Except Fault Findings × Search σ α :=
  let e := s.discoveries.evaluate m.properties state fp
  let records := e.messages.map fun message => ⟨.property, speaker, message⟩
  let s := { s with discoveries := e.discoveries, records := records ++ s.records }
  match e.fault with
  | some f => (.error f, s)
  | none => (.ok e.findings, s)

/-- Stops the search if what was found, or the number of states, is a reason to. -/
def note (cfg : Config σ) (speaker : Log.Speaker) (findings : Findings) (s : Search σ α) : Search σ α :=
  let s :=
    if (findings.violations > 0 && cfg.stopOnViolation) || s.discoveries.complete then s.stop speaker .stopped else s
  if cfg.maxStates > 0 && s.generated ≥ cfg.maxStates then s.stop speaker .boundReached else s

/-! ## Seeding -/

/-- Registers an initial state, and if it is new, evaluates the properties on it and hands it to the next worker. -/
def plant (m : Model σ α) (cfg : Config σ) (root : Entry σ) (s : Search σ α) : Except Fault Unit × Search σ α :=
  match s.register root.fp root.fp with
  | (.error f, s) => (.error f, s)
  | (.ok false, s) => (.ok (), s)
  | (.ok true, s) =>
    match s.judge m .main root.state root.fp with
    | (.error f, s) => (.error f, s)
    | (.ok findings, s) =>
      let s := s.note cfg .main findings
      (.ok (), { s with frontier := s.frontier.seed root })

@[inline] def andThen (r : Except Fault Unit × Search σ α) (next : Search σ α → Except Fault Unit × Search σ α) :
    Except Fault Unit × Search σ α :=
  match r with
  | (.error f, s) => (.error f, s)
  | (.ok (), s) => next s

/-- Registers initial states, evaluates the properties on the new ones and hands these to the workers in turn. -/
def seedFrom (m : Model σ α) (cfg : Config σ) : List σ → Search σ α → Except Fault Unit × Search σ α
  | [], s => (.ok (), s)
  | state :: rest, s => andThen (s.plant m cfg ⟨state, m.fingerprint state, 1⟩) (seedFrom m cfg rest)

/-- The search when its workers are about to start, or the fault that kept them from it. -/
def seed (m : Model σ α) (cfg : Config σ) : Except Fault Unit × Search σ α :=
  match seedFrom m cfg m.initStates (blank m cfg) with
  | (.error f, s) => (.error f, s)
  | (.ok (), s) => (.ok (), s.record .checker .main (.seeded s.generated))

/-! ## Steps of a worker -/

/-- The worker ends; the last one to end reports the result. -/
def finish (s : Search σ α) (worker : Nat) : Search σ α :=
  let s := (s.record .checker (.worker worker) (.finished worker)).setPhase worker .finished
  if s.done then s.record .checker (.worker worker) (.done s.generated) else s

/-- A fault ends the worker and stops the search; the first one is kept. -/
def crash (s : Search σ α) (worker : Nat) (f : Fault) : Search σ α :=
  ({ s with fault := s.fault.or (some f) }.stop (.worker worker) .error).finish worker

def take (pick worker : Nat) (s : Search σ α) : Search σ α :=
  let (popped, theft, frontier) := s.frontier.pop worker pick
  let s := { s with frontier }
  let s := match theft with
    | none => s
    | some t => s.record .frontier (.worker worker) (.stole t.thief t.count t.victim)
  match popped with
  | .entry e => s.setPhase worker (.visiting e)
  | .waiting => s.setPhase worker .waiting
  | .over => s.finish worker

/-- Counts an entry as expanded. -/
def visit (worker : Nat) (e : Entry σ) (s : Search σ α) : Search σ α :=
  { s with
    expanded := s.expanded + 1
    maxDepth := max s.maxDepth e.depth
    visits := (e.state, e.fp) :: s.visits }.setPhase worker (.showing e (s.expanded + 1))

def present (cfg : Config σ) (worker : Nat) (e : Entry σ) (call : Nat) (s : Search σ α) : Search σ α :=
  match cfg.visitor call e.state e.fp with
  | .error f => s.crash worker f
  | .ok () => s.setPhase worker (.opening e)

/-- Enumerates the actions of an entry, which has none beyond the boundary or at the greatest depth. -/
def enumerate (m : Model σ α) (cfg : Config σ) (worker : Nat) (e : Entry σ) (s : Search σ α) : Search σ α :=
  match m.withinBoundary e.state with
  | .error f => s.crash worker f
  | .ok false => s.setPhase worker (.acting e [])
  | .ok true =>
    if cfg.maxDepth > 0 && e.depth ≥ cfg.maxDepth then
      { s with depthLimited := true }.setPhase worker (.acting e [])
    else
      match m.actions e.state with
      | .error f => s.crash worker f
      | .ok as => { s with actionCount := s.actionCount + as.length }.setPhase worker (.acting e as)

/-- Registers a state that was reached from `e`, and keeps it if it is new. -/
def adopt (worker : Nat) (e child : Entry σ) (todo : List α) (s : Search σ α) : Search σ α :=
  match s.register child.fp e.fp with
  | (.error f, s) => s.crash worker f
  | (.ok false, s) => s.setPhase worker (.acting e todo)
  | (.ok true, s) => s.setPhase worker (.judging e child todo)

def act (m : Model σ α) (worker : Nat) (e : Entry σ) (a : α) (todo : List α) (s : Search σ α) : Search σ α :=
  match m.next e.state a with
  | .error f => s.crash worker f
  | .ok none => s.setPhase worker (.acting e todo)
  | .ok (some state) => s.adopt worker e ⟨state, m.fingerprint state, e.depth + 1⟩ todo

def give (worker : Nat) (e child : Entry σ) (todo : List α) (s : Search σ α) : Search σ α :=
  match s.frontier.push worker child with
  | .error err => s.crash worker ⟨err.message⟩
  | .ok frontier => { s with frontier }.setPhase worker (.acting e todo)

/-- The next step of a worker; `pick` chooses whom it steals from if it has to. -/
def step (m : Model σ α) (cfg : Config σ) (worker pick : Nat) (s : Search σ α) : Search σ α :=
  match s.phase worker with
  | .finished => s
  | .starting => (s.record .checker (.worker worker) (.started worker)).setPhase worker .idle
  | .idle | .waiting => s.take pick worker
  | .visiting e => s.visit worker e
  | .showing e call => s.present cfg worker e call
  | .opening e => s.enumerate m cfg worker e
  | .acting _ [] => { s with frontier := s.frontier.complete }.setPhase worker .idle
  | .acting e (a :: todo) => s.act m worker e a todo
  | .judging e child todo =>
    match s.judge m (.worker worker) child.state child.fp with
    | (.error f, s) => s.crash worker f
    | (.ok findings, s) => s.setPhase worker (.noting e child todo findings)
  | .noting e child todo findings => (s.note cfg (.worker worker) findings).setPhase worker (.pushing e child todo)
  | .pushing e child todo => s.give worker e child todo

def cancel (s : Search σ α) : Search σ α := if s.done then s else s.stop .main .stopped

end Search

/-! ## Runs -/

inductive Move where
  | work (worker pick : Nat)
  | cancel
  deriving DecidableEq, Repr

namespace Search

variable {σ α : Type}

def move (m : Model σ α) (cfg : Config σ) (s : Search σ α) : Move → Search σ α
  | .work worker pick => s.step m cfg worker pick
  | .cancel => s.cancel

def play (m : Model σ α) (cfg : Config σ) (s : Search σ α) (moves : List Move) : Search σ α :=
  moves.foldl (move m cfg) s

end Search

end StateSpace
