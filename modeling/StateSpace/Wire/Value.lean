import StateSpace.Bytes

/-!
# Wire values

Messages cross the wire as self-describing text: `42`, `-7`, `"text"`, `True`, `{1, 2}`, `Prepare[3]`.

* `Value`: an integer, a string, a symbol, a list, or a function, that is, a head applied to arguments.
* `Kind`: which of the five a value is, with the name error messages use.
* `Value.nesting`: how deep lists and argument lists nest.
* `Value.WellNamed`: every symbol and every head is an identifier.
-/

namespace StateSpace.Wire

inductive Value where
  | integer (n : Int64)
  | string (content : Bytes)
  | symbol (name : Bytes)
  | list (items : List Value)
  | function (head : Bytes) (args : List Value)
  deriving Inhabited

inductive Kind where
  | integer | string | symbol | list | function
  deriving DecidableEq, Repr

def Kind.name : Kind → String
  | .integer => "integer"
  | .string => "string"
  | .symbol => "symbol"
  | .list => "list"
  | .function => "function"

def Value.kind : Value → Kind
  | .integer _ => .integer
  | .string _ => .string
  | .symbol _ => .symbol
  | .list _ => .list
  | .function _ _ => .function

/-! ## Shape of a value -/

mutual

/-- How deep lists and argument lists nest; a scalar has depth 0. -/
def Value.nesting : Value → Nat
  | .integer _ => 0
  | .string _ => 0
  | .symbol _ => 0
  | .list items => Value.nestingAll items + 1
  | .function _ args => Value.nestingAll args + 1

def Value.nestingAll : List Value → Nat
  | [] => 0
  | v :: vs => max v.nesting (Value.nestingAll vs)

end

/-- A name that the reader takes as one identifier: it starts with a letter or a dollar sign, and letters,
digits and dollar signs follow. -/
def IsIdentifier : Bytes → Bool
  | [] => false
  | b :: bs => isNameStart b && bs.all isNameByte

mutual

/-- Every symbol and every head in the value is an identifier. -/
def Value.WellNamed : Value → Bool
  | .integer _ => true
  | .string _ => true
  | .symbol name => IsIdentifier name
  | .list items => Value.WellNamedAll items
  | .function head args => IsIdentifier head && Value.WellNamedAll args

def Value.WellNamedAll : List Value → Bool
  | [] => true
  | v :: vs => v.WellNamed && Value.WellNamedAll vs

end

/-! ## Equality -/

mutual

def Value.decEq : (a b : Value) → Decidable (a = b)
  | .integer m, .integer n =>
    if h : m = n then .isTrue (by rw [h]) else .isFalse (fun e => h (Value.integer.inj e))
  | .string s, .string t =>
    if h : s = t then .isTrue (by rw [h]) else .isFalse (fun e => h (Value.string.inj e))
  | .symbol s, .symbol t =>
    if h : s = t then .isTrue (by rw [h]) else .isFalse (fun e => h (Value.symbol.inj e))
  | .list xs, .list ys =>
    match Value.decEqAll xs ys with
    | .isTrue h => .isTrue (by rw [h])
    | .isFalse h => .isFalse (fun e => h (Value.list.inj e))
  | .function s xs, .function t ys =>
    if h : s = t then
      match Value.decEqAll xs ys with
      | .isTrue h' => .isTrue (by rw [h, h'])
      | .isFalse h' => .isFalse (fun e => h' (Value.function.inj e).2)
    else .isFalse (fun e => h (Value.function.inj e).1)
  | .integer _, .string _ | .integer _, .symbol _ | .integer _, .list _ | .integer _, .function _ _
  | .string _, .integer _ | .string _, .symbol _ | .string _, .list _ | .string _, .function _ _
  | .symbol _, .integer _ | .symbol _, .string _ | .symbol _, .list _ | .symbol _, .function _ _
  | .list _, .integer _ | .list _, .string _ | .list _, .symbol _ | .list _, .function _ _
  | .function _ _, .integer _ | .function _ _, .string _ | .function _ _, .symbol _
  | .function _ _, .list _ => .isFalse nofun

def Value.decEqAll : (xs ys : List Value) → Decidable (xs = ys)
  | [], [] => .isTrue rfl
  | [], _ :: _ => .isFalse nofun
  | _ :: _, [] => .isFalse nofun
  | x :: xs, y :: ys =>
    match Value.decEq x y, Value.decEqAll xs ys with
    | .isTrue h, .isTrue h' => .isTrue (by rw [h, h'])
    | .isFalse h, _ => .isFalse (fun e => h (List.cons.inj e).1)
    | _, .isFalse h' => .isFalse (fun e => h' (List.cons.inj e).2)

end

instance : DecidableEq Value := Value.decEq

end StateSpace.Wire
