import StateSpace.Wire.Value

/-!
# Errors of the wire format

* `ParseError`: malformed text, with the byte position it is reported at.
* `TypeError`: a well-formed value of the wrong shape.
* `Error`: either of them, as decoding typed data from text meets both.

Each has one `message`.
-/

namespace StateSpace.Wire

inductive ParseFault where
  | unexpectedEnd
  | trailing
  | unexpected (found : UInt8)
  | expectedDigits
  | integerTooLarge
  | unterminatedString
  | unterminatedEscape
  | unknownEscape (found : UInt8)
  | expectedIdentifier
  | expected (wanted : UInt8)
  | nestingTooDeep
  | expectedSeparator (closing : UInt8)
  deriving DecidableEq, Repr

def ParseFault.text : ParseFault → String
  | .unexpectedEnd => "Unexpected end of input"
  | .trailing => "Trailing characters after value"
  | .unexpected b => "Unexpected character '" ++ Bytes.toText [b] ++ "'"
  | .expectedDigits => "Expected digits"
  | .integerTooLarge => "Integer too large"
  | .unterminatedString => "Unterminated string"
  | .unterminatedEscape => "Unterminated escape sequence"
  | .unknownEscape b => "Unknown escape '\\" ++ Bytes.toText [b] ++ "'"
  | .expectedIdentifier => "Expected identifier"
  | .expected b => "Expected '" ++ Bytes.toText [b] ++ "'"
  | .nestingTooDeep => "Nesting too deep"
  | .expectedSeparator b => "Expected ',' or '" ++ Bytes.toText [b] ++ "'"

/-- Malformed text: what is wrong and at which byte. -/
structure ParseError where
  fault : ParseFault
  position : Nat
  deriving DecidableEq, Repr

def ParseError.message (e : ParseError) : String := "Parse error: " ++ e.fault.text

inductive TypeError where
  | expectedInteger (got : Kind)
  | outOfRange (n : Int)
  | exceedsWire (n : Int)
  | expectedBool
  | expectedString (got : Kind)
  | expectedList (got : Kind)
  | expectedFunction (got : Kind)
  | expectedApplication (head : Bytes) (got : Kind)
  | expectedHead (head got : Bytes)
  | wrongArity (head : Bytes) (expected got : Nat)
  deriving DecidableEq, Repr

def TypeError.message (e : TypeError) : String := "Type error: " ++ match e with
  | .expectedInteger k => "Expected integer, got " ++ k.name
  | .outOfRange n => "Integer " ++ (Bytes.decimal n).toText ++ " out of range"
  | .exceedsWire n => "Integer " ++ (Bytes.decimal n).toText ++ " exceeds the wire range"
  | .expectedBool => "Expected True or False"
  | .expectedString k => "Expected string, got " ++ k.name
  | .expectedList k => "Expected list, got " ++ k.name
  | .expectedFunction k => "Expected function, got " ++ k.name
  | .expectedApplication head k => "Expected " ++ head.toText ++ "[...], got " ++ k.name
  | .expectedHead head got => "Expected " ++ head.toText ++ "[...], got " ++ got.toText ++ "[...]"
  | .wrongArity head expected got =>
    head.toText ++ " expects " ++ toString expected ++ " arguments, got " ++ toString got

inductive Error where
  | parse (e : ParseError)
  | type (e : TypeError)
  deriving DecidableEq, Repr

def Error.message : Error → String
  | .parse e => e.message
  | .type e => e.message

end StateSpace.Wire
