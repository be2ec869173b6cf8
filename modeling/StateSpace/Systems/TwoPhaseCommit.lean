import StateSpace.Model
import StateSpace.Sorted

/-!
# Two-phase commit

One transaction manager and a number of resource managers exchange messages through a shared set that never loses one. A
resource manager prepares or aborts; the transaction manager commits once it knows that all are prepared, or aborts at any
time before.

* `TwoPhase.State`, `TwoPhase.Action`: states and actions.
* `TwoPhase.actions`, `TwoPhase.next`: enabled actions and where they lead.
* `TwoPhase.model`: the protocol for a number of resource managers, with the properties that agreement on either outcome
  is possible and that no two resource managers disagree.
-/

namespace StateSpace.TwoPhase

inductive RmState where
  | working | prepared | committed | aborted
  deriving DecidableEq, Repr

inductive TmState where
  | init | committed | aborted
  deriving DecidableEq, Repr

inductive MessageKind where
  | prepared | commit | abort
  deriving DecidableEq, Repr

/-- A message; the resource manager has a meaning only if it announces that one is prepared. -/
structure Message where
  kind : MessageKind
  rm : Nat
  deriving DecidableEq, Repr

/-- The state of the protocol. The messages are sorted and distinct. -/
structure State where
  rms : List RmState
  tm : TmState
  tmPrepared : List Bool
  msgs : List Message
  deriving DecidableEq, Repr

inductive ActionKind where
  | tmRcvPrepared | tmCommit | tmAbort | rmPrepare | rmChooseToAbort | rmRcvCommit | rmRcvAbort
  deriving DecidableEq, Repr

/-- An action; the resource manager has a meaning only for the actions of one. -/
structure Action where
  kind : ActionKind
  rm : Nat
  deriving DecidableEq, Repr

/-! ## Numbers and names -/

def RmState.code : RmState → Nat
  | .working => 0
  | .prepared => 1
  | .committed => 2
  | .aborted => 3

def RmState.name : RmState → String
  | .working => "Working"
  | .prepared => "Prepared"
  | .committed => "Committed"
  | .aborted => "Aborted"

def TmState.code : TmState → Nat
  | .init => 0
  | .committed => 1
  | .aborted => 2

def TmState.name : TmState → String
  | .init => "Init"
  | .committed => "Committed"
  | .aborted => "Aborted"

def MessageKind.code : MessageKind → Nat
  | .prepared => 0
  | .commit => 1
  | .abort => 2

def ActionKind.code : ActionKind → Nat
  | .tmRcvPrepared => 0
  | .tmCommit => 1
  | .tmAbort => 2
  | .rmPrepare => 3
  | .rmChooseToAbort => 4
  | .rmRcvCommit => 5
  | .rmRcvAbort => 6

def Message.text (m : Message) : String :=
  match m.kind with
  | .prepared => s!"Prepared({m.rm})"
  | .commit => "Commit"
  | .abort => "Abort"

def Action.text (a : Action) : String :=
  match a.kind with
  | .tmRcvPrepared => s!"TmRcvPrepared({a.rm})"
  | .tmCommit => "TmCommit"
  | .tmAbort => "TmAbort"
  | .rmPrepare => s!"RmPrepare({a.rm})"
  | .rmChooseToAbort => s!"RmChooseToAbort({a.rm})"
  | .rmRcvCommit => s!"RmRcvCommitMsg({a.rm})"
  | .rmRcvAbort => s!"RmRcvAbortMsg({a.rm})"

def State.text (s : State) : String :=
  "rm_state: [" ++ String.intercalate ", " (s.rms.map RmState.name) ++ "], tm_state: " ++ s.tm.name ++
    ", tm_prepared: [" ++ String.intercalate ", " (s.tmPrepared.map fun p => if p then "true" else "false") ++
    "], msgs: \x7b" ++ String.intercalate ", " (s.msgs.map Message.text) ++ "\x7d"

/-! ## Messages -/

/-- Messages are ordered by kind, then resource manager. -/
instance : Ord Message where
  compare a b := (compare a.kind.code b.kind.code).then (compare a.rm b.rm)

def Message.prepared (rm : Nat) : Message := ⟨.prepared, rm⟩

def Message.commit : Message := ⟨.commit, 0⟩

def Message.abort : Message := ⟨.abort, 0⟩

def State.send (s : State) (m : Message) : State := { s with msgs := Sorted.insertNew m s.msgs }

def State.setRm (s : State) (rm : Nat) (r : RmState) : State := { s with rms := s.rms.set rm r }

def State.allIn (s : State) (r : RmState) : Bool := s.rms.all (· == r)

/-- Whether no resource manager has committed while another has aborted. -/
def State.consistent (s : State) : Bool := !(s.rms.contains .aborted && s.rms.contains .committed)

/-! ## Behaviour -/

/-- All resource managers work, and nothing was sent. -/
def initial (n : Nat) : State := ⟨List.replicate n .working, .init, List.replicate n false, []⟩

def actionsOf (s : State) (rm : Nat) : List Action :=
  (if s.tm = .init ∧ .prepared rm ∈ s.msgs then [⟨.tmRcvPrepared, rm⟩] else []) ++
  (if s.rms[rm]? = some .working then [⟨.rmPrepare, rm⟩, ⟨.rmChooseToAbort, rm⟩] else []) ++
  (if .commit ∈ s.msgs then [⟨.rmRcvCommit, rm⟩] else []) ++
  if .abort ∈ s.msgs then [⟨.rmRcvAbort, rm⟩] else []

def actions (n : Nat) (s : State) : List Action :=
  (if s.tm = .init ∧ s.tmPrepared.all id then [⟨.tmCommit, 0⟩] else []) ++
  (if s.tm = .init then [⟨.tmAbort, 0⟩] else []) ++
  (List.range n).flatMap (actionsOf s)

/-- The state after an action, enabled or not. -/
def next (s : State) (a : Action) : State :=
  match a.kind with
  | .tmRcvPrepared => { s with tmPrepared := s.tmPrepared.set a.rm true }
  | .tmCommit => { s with tm := .committed }.send .commit
  | .tmAbort => { s with tm := .aborted }.send .abort
  | .rmPrepare => (s.setRm a.rm .prepared).send (.prepared a.rm)
  | .rmChooseToAbort => s.setRm a.rm .aborted
  | .rmRcvCommit => s.setRm a.rm .committed
  | .rmRcvAbort => s.setRm a.rm .aborted

/-! ## Hashes -/

def Message.hash (m : Message) : UInt64 := Hash.combine (Hash.combine Hash.offset m.kind.code) m.rm

instance : ToWord Message := ⟨Message.hash⟩

def State.hash (s : State) : UInt64 :=
  let seed := s.rms.foldl (fun seed r => Hash.combine seed r.code) Hash.offset
  let seed := Hash.combine seed s.tm.code
  let seed := s.tmPrepared.foldl Hash.combine seed
  Hash.combineAll seed s.msgs

def properties : List (Property State) :=
  [⟨"abort agreement", .sometimes, fun s => .ok (s.allIn .aborted)⟩,
   ⟨"commit agreement", .sometimes, fun s => .ok (s.allIn .committed)⟩,
   ⟨"consistent", .always, fun s => .ok s.consistent⟩]

def model (n : Nat) : Model State Action where
  initStates := [initial n]
  actions s := .ok (actions n s)
  next s a := .ok (some (next s a))
  properties := properties
  hash := State.hash
  formatState := State.text
  formatAction := Action.text

end StateSpace.TwoPhase
