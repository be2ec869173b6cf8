/-!
# Properties and verdicts

* `Fault`: what code supplied by a model raises.
* `Expectation`: whether a condition must hold always or sometimes.
* `Property`: a named condition with its expectation.
* `Verdict`, `classify`: what a search lets one say about a property.

A state *resolves* a property if it settles it by itself: a state violating an `always` condition, or one satisfying
a `sometimes` condition.
-/

namespace StateSpace

/-- A failure raised by code that a model supplies. -/
structure Fault where
  message : String
  deriving DecidableEq, Repr

/-- How often a condition has to hold among the reachable states. -/
inductive Expectation where
  | always
  | sometimes
  deriving DecidableEq, Repr

def Expectation.name : Expectation → String
  | .always => "always"
  | .sometimes => "sometimes"

def Expectation.ofCode : Int → Expectation
  | 0 => .always
  | _ => .sometimes

/-- Whether a state in which the condition has the given truth value settles the property. -/
def Expectation.resolvedBy : Expectation → (holds : Bool) → Bool
  | .always, holds => !holds
  | .sometimes, holds => holds

structure Property (σ : Type) where
  name : String
  expectation : Expectation
  condition : σ → Except Fault Bool

inductive Verdict where
  | passed
  | failed
  | inconclusive
  deriving DecidableEq, Repr

def Verdict.name : Verdict → String
  | .passed => "Passed"
  | .failed => "Failed"
  | .inconclusive => "Inconclusive"

def Verdict.ofCode? : Int → Option Verdict
  | 0 => some .passed
  | 1 => some .failed
  | 2 => some .inconclusive
  | _ => none

/-- The name of the verdict with a number; numbers without a verdict share one. -/
def Verdict.nameOfCode (code : Int) : String := ((ofCode? code).map name).getD "Unknown"

/-- The verdict, given whether a resolving state was discovered and whether every reachable state was expanded. -/
def classify : Expectation → (discovered exhausted : Bool) → Verdict
  | .always, true, _ => .failed
  | .always, false, true => .passed
  | .sometimes, true, _ => .passed
  | .sometimes, false, true => .failed
  | _, false, false => .inconclusive

end StateSpace
