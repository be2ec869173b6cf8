import StateSpace.Property

/-!
# Conditions

A small language of conditions on states: comparisons of linear combinations of a state's variables, and their Boolean
combinations.

* `Condition`: the conditions over variables `ν`.
* `Condition.eval`: the truth value under a valuation of the variables, or the fault the condition raises.
-/

namespace StateSpace

inductive Comparison where
  | lt | le | eq | ne | ge | gt
  deriving DecidableEq, Repr

def Comparison.holds : Comparison → Int → Int → Bool
  | .lt, a, b => a < b
  | .le, a, b => a ≤ b
  | .eq, a, b => a = b
  | .ne, a, b => a ≠ b
  | .ge, a, b => a ≥ b
  | .gt, a, b => a > b

/-- A condition over variables `ν`. -/
inductive Condition (ν : Type) where
  | const (b : Bool)
  | raise (message : String)
  | not (c : Condition ν)
  | all (cs : List (Condition ν))
  | any (cs : List (Condition ν))
  | compare (terms : List (Int × ν)) (comparison : Comparison) (n : Int)

namespace Condition

variable {ν : Type}

def total (value : ν → Int) (terms : List (Int × ν)) : Int :=
  terms.foldl (fun acc (k, v) => acc + k * value v) 0

mutual

/-- The truth value of a condition; combinations are evaluated from left to right as far as needed. -/
def eval (value : ν → Int) : Condition ν → Except Fault Bool
  | .const b => .ok b
  | .raise message => .error ⟨message⟩
  | .not c => do return !(← c.eval value)
  | .all cs => evalAll value cs
  | .any cs => evalAny value cs
  | .compare terms comparison n => .ok (comparison.holds (total value terms) n)

def evalAll (value : ν → Int) : List (Condition ν) → Except Fault Bool
  | [] => .ok true
  | c :: cs => do
    match ← c.eval value with
    | true => evalAll value cs
    | false => return false

def evalAny (value : ν → Int) : List (Condition ν) → Except Fault Bool
  | [] => .ok false
  | c :: cs => do
    match ← c.eval value with
    | true => return true
    | false => evalAny value cs

end

end Condition

end StateSpace
