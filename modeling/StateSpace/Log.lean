import StateSpace.Bytes
import StateSpace.Hash
import StateSpace.Property

/-!
# Diagnostic lines

* `Channel`: the source of a line, a bit that a mask can mute.
* `Speaker`: the thread that writes it.
* `Message`: what is said, and `Message.text`, how.
* `Record`: a line with its channel, speaker and message; `Record.line` is its text.
* `Sink`: where lines go, and which channels are heard.

Texts end at their first NUL, as they are handed over NUL-terminated.
-/

namespace StateSpace.Log

/-- The source of a line, as the bit that stands for it in a mask. -/
structure Channel where
  bit : UInt32
  deriving DecidableEq, Repr

namespace Channel

/-- Seeding, workers, stopping and finishing. -/
def checker : Channel := ⟨1⟩

/-- Work taken from another worker. -/
def frontier : Channel := ⟨2⟩

/-- The first state that resolves a property. -/
def property : Channel := ⟨4⟩

/-- The mask that mutes none of the three channels. -/
def all : UInt32 := 7

/-- The name of a channel; bits without a meaning share one. -/
def name (c : Channel) : String :=
  if c = checker then "checker"
  else if c = frontier then "frontier"
  else if c = property then "property"
  else "?"

end Channel

/-- The thread a line comes from: a worker, or one outside the pool. -/
inductive Speaker where
  | main
  | worker (n : Nat)
  deriving DecidableEq, Repr

def Speaker.tag : Speaker → String
  | .main => "[main] "
  | .worker n => s!"[W{n}] "

inductive Message where
  | text (s : String)
  | seeded (count : Nat)
  | started (worker : Nat)
  | finished (worker : Nat)
  | done (count : Nat)
  | stopRequested (reason : Int)
  | resolved (name : String) (expectation : Expectation) (fp : Fingerprint)
  | stole (thief count victim : Nat)
  | unformattable (format : String)
  deriving DecidableEq, Repr

def hex16 (w : UInt64) : String :=
  let digits := Nat.toDigits 16 w.toNat
  String.ofList (List.replicate (16 - digits.length) '0' ++ digits)

def Message.words : Message → String
  | .text s => untilNul s
  | .seeded count => s!"seeded {count} initial states"
  | .started worker => s!"worker {worker} started"
  | .finished worker => s!"worker {worker} finished"
  | .done count => s!"check finished: {count} states generated"
  | .stopRequested reason => s!"stop requested (reason {reason})"
  | .resolved name expectation fp =>
    let verb := match expectation with
      | .always => "violated"
      | .sometimes => "witnessed"
    "property \"" ++ untilNul name ++ "\" " ++ verb ++ " at " ++ hex16 fp
  | .stole thief count victim => s!"worker {thief} stole {count} entries from worker {victim}"
  | .unformattable format => format

structure Record where
  channel : Channel
  speaker : Speaker
  message : Message
  deriving DecidableEq, Repr

/-- The text of a line. A message that cannot be formatted is reported by its format alone. -/
def Record.line (r : Record) : String :=
  match r.message with
  | .unformattable format => "[statecheck] bad format: " ++ untilNul format
  | m => "[statecheck:" ++ r.channel.name ++ "]" ++ r.speaker.tag ++ m.words

/-- Where lines go: to a listener, or to the console if there is none. -/
structure Sink where
  mask : UInt32
  listening : Bool
  deriving DecidableEq, Repr

def Sink.initial : Sink := ⟨Channel.all, true⟩

def Sink.hears (s : Sink) (c : Channel) : Bool := s.mask &&& c.bit != 0

inductive Delivery where
  | muted
  | listener (channel line : String)
  | console (text : String)
  deriving DecidableEq, Repr

def Sink.emit (s : Sink) (r : Record) : Delivery :=
  if !s.hears r.channel then .muted
  else if s.listening then .listener r.channel.name r.line
  else .console (r.line ++ "\n")

end StateSpace.Log
