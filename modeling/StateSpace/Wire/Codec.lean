import StateSpace.Wire.Reader
import StateSpace.Wire.Writer

/-!
# Typed data on the wire

* `Shape`: the types that have a wire form, from fixed-width integers, booleans, byte strings and lists of these;
  `Shape.Carrier` is the type a shape stands for.
* `Shape.toValue?`, `Shape.ofValue?`: a datum as a value and back. An integer has to fit the wire's 64 signed bits
  one way and its own type the other way.
* `Shape.serialize`, `Shape.deserialize`: the same through text.
* `Value.argsOf`, `Value.headName`: taking apart a head applied to arguments.
-/

namespace StateSpace.Wire

/-! ## Fixed-width integers -/

/-- A fixed-width integer type as the integers of a range. -/
class WireInt (α : Type) where
  least : Int
  greatest : Int
  toInt : α → Int
  ofInt : Int → α

instance : WireInt Int8 := ⟨-128, 127, Int8.toInt, Int8.ofInt⟩
instance : WireInt Int16 := ⟨-32768, 32767, Int16.toInt, Int16.ofInt⟩
instance : WireInt Int32 := ⟨-2147483648, 2147483647, Int32.toInt, Int32.ofInt⟩
instance : WireInt Int64 := ⟨-9223372036854775808, 9223372036854775807, Int64.toInt, Int64.ofInt⟩
instance : WireInt UInt8 := ⟨0, 255, fun n => n.toNat, fun n => UInt8.ofNat n.toNat⟩
instance : WireInt UInt16 := ⟨0, 65535, fun n => n.toNat, fun n => UInt16.ofNat n.toNat⟩
instance : WireInt UInt32 := ⟨0, 4294967295, fun n => n.toNat, fun n => UInt32.ofNat n.toNat⟩
instance : WireInt UInt64 := ⟨0, 18446744073709551615, fun n => n.toNat, fun n => UInt64.ofNat n.toNat⟩

/-- The value of an integer, which has to be at most the greatest signed 64-bit integer. -/
def intToValue (α : Type) [WireInt α] (x : α) : Except TypeError Value :=
  let n := WireInt.toInt x
  if n ≤ WireInt.greatest Int64 then .ok (.integer (Int64.ofInt n)) else .error (.exceedsWire n)

/-- The integer of a value, which has to be in the type's range. -/
def intOfValue (α : Type) [WireInt α] : Value → Except TypeError α
  | .integer n =>
    if WireInt.least α ≤ n.toInt ∧ n.toInt ≤ WireInt.greatest α then .ok (WireInt.ofInt n.toInt)
    else .error (.outOfRange n.toInt)
  | v => .error (.expectedInteger v.kind)

/-! ## Booleans, strings and lists -/

def boolSymbol : Bool → Bytes
  | true => Bytes.ofChars ['T', 'r', 'u', 'e']
  | false => Bytes.ofChars ['F', 'a', 'l', 's', 'e']

def boolOfValue : Value → Except TypeError Bool
  | .symbol name =>
    if name == boolSymbol true then .ok true
    else if name == boolSymbol false then .ok false
    else .error .expectedBool
  | _ => .error .expectedBool

def stringOfValue : Value → Except TypeError Bytes
  | .string content => .ok content
  | v => .error (.expectedString v.kind)

def itemsOfValue : Value → Except TypeError (List Value)
  | .list items => .ok items
  | v => .error (.expectedList v.kind)

/-! ## Shapes -/

inductive Shape where
  | int8 | int16 | int32 | int64
  | uint8 | uint16 | uint32 | uint64
  | bool
  | string
  | list (item : Shape)
  deriving DecidableEq, Repr

namespace Shape

/-- The type a shape stands for. -/
def Carrier : Shape → Type
  | int8 => Int8
  | int16 => Int16
  | int32 => Int32
  | int64 => Int64
  | uint8 => UInt8
  | uint16 => UInt16
  | uint32 => UInt32
  | uint64 => UInt64
  | bool => Bool
  | string => Bytes
  | list item => List item.Carrier

def decEq : (s : Shape) → DecidableEq s.Carrier
  | int8 => inferInstanceAs (DecidableEq Int8)
  | int16 => inferInstanceAs (DecidableEq Int16)
  | int32 => inferInstanceAs (DecidableEq Int32)
  | int64 => inferInstanceAs (DecidableEq Int64)
  | uint8 => inferInstanceAs (DecidableEq UInt8)
  | uint16 => inferInstanceAs (DecidableEq UInt16)
  | uint32 => inferInstanceAs (DecidableEq UInt32)
  | uint64 => inferInstanceAs (DecidableEq UInt64)
  | bool => inferInstanceAs (DecidableEq Bool)
  | string => inferInstanceAs (DecidableEq Bytes)
  | list item =>
    have := decEq item
    inferInstanceAs (DecidableEq (List item.Carrier))

instance (s : Shape) : DecidableEq s.Carrier := decEq s

/-- A datum as a value; the first item that has no wire form decides the error. -/
def toValue? : (s : Shape) → s.Carrier → Except TypeError Value
  | int8, x => intToValue Int8 x
  | int16, x => intToValue Int16 x
  | int32, x => intToValue Int32 x
  | int64, x => intToValue Int64 x
  | uint8, x => intToValue UInt8 x
  | uint16, x => intToValue UInt16 x
  | uint32, x => intToValue UInt32 x
  | uint64, x => intToValue UInt64 x
  | bool, x => .ok (.symbol (boolSymbol x))
  | string, x => .ok (.string x)
  | list item, xs => Value.list <$> List.mapM (toValue? item) xs

/-- The datum of a value; the first item of the wrong shape decides the error. -/
def ofValue? : (s : Shape) → Value → Except TypeError s.Carrier
  | int8, v => intOfValue Int8 v
  | int16, v => intOfValue Int16 v
  | int32, v => intOfValue Int32 v
  | int64, v => intOfValue Int64 v
  | uint8, v => intOfValue UInt8 v
  | uint16, v => intOfValue UInt16 v
  | uint32, v => intOfValue UInt32 v
  | uint64, v => intOfValue UInt64 v
  | bool, v => boolOfValue v
  | string, v => stringOfValue v
  | list item, v => itemsOfValue v >>= fun vs => vs.mapM (ofValue? item)

def serialize (s : Shape) (x : s.Carrier) : Except TypeError Bytes := Value.render <$> s.toValue? x

def deserialize (s : Shape) (text : Bytes) : Except Error s.Carrier :=
  match parse text with
  | .error e => .error (.parse e)
  | .ok v =>
    match s.ofValue? v with
    | .error e => .error (.type e)
    | .ok x => .ok x

end Shape

/-! ## Functions -/

/-- The arguments of a function value with the given head and number of arguments. -/
def Value.argsOf (head : Bytes) (arity : Nat) : Value → Except TypeError (List Value)
  | .function name args =>
    if name ≠ head then .error (.expectedHead head name)
    else if args.length ≠ arity then .error (.wrongArity head arity args.length)
    else .ok args
  | v => .error (.expectedApplication head v.kind)

/-- The head of a function, or the name of a symbol, which stands for a message without arguments. -/
def Value.headName : Value → Except TypeError Bytes
  | .function head _ => .ok head
  | .symbol name => .ok name
  | v => .error (.expectedFunction v.kind)

end StateSpace.Wire
