import StateSpace.Bytes
import StateSpace.Hash

/-!
# Numbers on a command line

`readWord` reads the 64-bit word at the front of a text: blanks, a sign, decimal digits. What follows is ignored, and a
negative number is taken modulo `2 ^ 64`. Texts have one character per byte.
-/

namespace StateSpace.Console

inductive NumeralError where
  | invalid
  | outOfRange
  deriving DecidableEq, Repr

def NumeralError.message : NumeralError → String
  | .invalid => "stoul"
  | .outOfRange => "stoul"

def digitsValue (digits : Bytes) : Nat := digits.foldl (fun n d => 10 * n + (d - '0'.toUInt8).toNat) 0

def splitSign : Bytes → Bool × Bytes
  | [] => (false, [])
  | b :: bs =>
    if b == '-'.toUInt8 then (true, bs)
    else if b == '+'.toUInt8 then (false, bs)
    else (false, b :: bs)

def readWord (text : String) : Except NumeralError UInt64 :=
  let (negative, rest) := splitSign ((Bytes.ofString text).dropWhile isBlank)
  let digits := rest.takeWhile isDigit
  if digits.isEmpty then .error .invalid
  else
    let n := digitsValue digits
    if n < wordCount then .ok (if negative then -UInt64.ofNat n else UInt64.ofNat n) else .error .outOfRange

end StateSpace.Console
