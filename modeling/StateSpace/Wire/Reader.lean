import StateSpace.Wire.Error

/-!
# Reading wire text

A `Reader` takes bytes off a `Cursor`. A failed read leaves the cursor where the failure happened, and the lists
it had entered stay entered, so a later read on the same cursor sees both.

* `Cursor`: the unread bytes of a text, the position of the first of them, and how many lists are open.
* `Reader.peek`, `Reader.expect`: the next byte after blanks.
* `Reader.integer`, `Reader.string`, `Reader.identifier`: the scalars.
* `Reader.sequence`: comma-separated values between two delimiters.
* `Reader.value`: one value; `Reader.parse`: one value and nothing behind it.
* `parse`: a whole text as one value.
-/

namespace StateSpace.Wire

/-- Lists and argument lists may nest this deep. -/
def maxDepth : Nat := 512

/-- Where a reader stands in a text of the given size. -/
structure Cursor where
  size : Nat
  rest : Bytes
  pos : Nat
  depth : Nat
  deriving DecidableEq, Repr

def Cursor.start (text : Bytes) : Cursor := ⟨text.length, text, 0, 0⟩

def Cursor.atEnd (c : Cursor) : Bool := c.rest.isEmpty

def Cursor.skip (p : UInt8 → Bool) (c : Cursor) : Cursor :=
  { c with rest := c.rest.dropWhile p, pos := c.pos + (c.rest.takeWhile p).length }

def Cursor.next (c : Cursor) : Cursor := { c with rest := c.rest.tail, pos := c.pos + 1 }

/-- A computation that takes bytes off a cursor, which is kept after a failure too. -/
abbrev Reader := EStateM ParseError Cursor

namespace Reader

def fail {α : Type} (fault : ParseFault) : Reader α := fun c => .error ⟨fault, c.pos⟩ c

/-- Fails at the byte just read. -/
def failBehind {α : Type} (fault : ParseFault) : Reader α := fun c => .error ⟨fault, c.pos - 1⟩ c

def blanks : Reader Unit := modify (Cursor.skip isBlank)

def advance : Reader Unit := modify Cursor.next

/-- The next byte after blanks, not yet taken. -/
def peek : Reader UInt8 := do
  blanks
  match (← get).rest with
  | [] => fail .unexpectedEnd
  | b :: _ => return b

def expect (wanted : UInt8) : Reader Unit := do
  if (← peek) == wanted then advance else fail (.expected wanted)

def nextIs (b : UInt8) : Reader Bool := return (← get).rest.head? == some b

/-! ## Scalars -/

/-- Counts down from `value` by a run of digits, so that the least integer is reached as well as the others. The
step that would pass the least integer stops with the digits not taken, itself among them. -/
def countDown (value : Int64) : Bytes → Except Bytes Int64
  | [] => .ok value
  | b :: bs =>
    let digit := (b - '0'.toUInt8).toUInt64.toInt64
    if value < (Int64.minValue + digit) / 10 then .error (b :: bs)
    else countDown (value * 10 - digit) bs

/-- An integer: an optional minus sign and digits. One that does not fit is reported at its first byte. -/
def integer : Reader Int64 := do
  blanks
  let start := (← get).pos
  let negative ← nextIs '-'.toUInt8
  if negative then advance
  let c ← get
  let digits := c.rest.takeWhile isDigit
  if digits.isEmpty then fail .expectedDigits
  else
    match countDown 0 digits with
    | .error untaken =>
      set { c with rest := untaken ++ c.rest.dropWhile isDigit, pos := c.pos + (digits.length - untaken.length) }
      throw ⟨.integerTooLarge, start⟩
    | .ok value =>
      set (c.skip isDigit)
      if negative then return value
      else if value == Int64.minValue then throw ⟨.integerTooLarge, start⟩
      else return -value

def unescape (b : UInt8) : Option UInt8 :=
  if b == '"'.toUInt8 then some '"'.toUInt8
  else if b == '\\'.toUInt8 then some '\\'.toUInt8
  else if b == 'n'.toUInt8 then some '\n'.toUInt8
  else if b == 't'.toUInt8 then some '\t'.toUInt8
  else if b == 'r'.toUInt8 then some '\r'.toUInt8
  else none

/-- The content of a string behind its opening quote, gathered backwards in `content`, at position `pos` of the text of
cursor `c`. -/
def stringBody (c : Cursor) (pos : Nat) (content : Bytes) : Bytes → EStateM.Result ParseError Cursor Bytes
  | [] => .error ⟨.unterminatedString, pos⟩ { c with rest := [], pos }
  | b :: rest =>
    if b == '"'.toUInt8 then .ok content.reverse { c with rest, pos := pos + 1 }
    else if b == '\\'.toUInt8 then
      match rest with
      | [] => .error ⟨.unterminatedEscape, pos + 1⟩ { c with rest := [], pos := pos + 1 }
      | e :: rest =>
        match unescape e with
        | some r => stringBody c (pos + 2) (r :: content) rest
        | none => .error ⟨.unknownEscape e, pos + 1⟩ { c with rest, pos := pos + 2 }
    else stringBody c (pos + 1) (b :: content) rest

def string : Reader Bytes := do
  expect '"'.toUInt8
  fun c => stringBody c c.pos [] c.rest

/-- The longest run of name bytes, which may start with a digit here. -/
def identifier : Reader Bytes := do
  blanks
  let name := (← get).rest.takeWhile isNameByte
  if name.isEmpty then fail .expectedIdentifier
  else
    modify (Cursor.skip isNameByte)
    return name

/-! ## Values -/

/-- The items of a sequence up to its closing byte, gathered backwards in `taken`. Every item takes a byte, so
there are no more items than `fuel`, which is at least the number of bytes left. -/
def items (item : Reader Value) (closing : UInt8) : (fuel : Nat) → (taken : List Value) → Reader (List Value)
  | 0, _ => fail .unexpectedEnd
  | fuel + 1, taken => do
    let v ← item
    let b ← peek
    advance
    if b == closing then return (v :: taken).reverse
    else if b == ','.toUInt8 then items item closing fuel (v :: taken)
    else failBehind (.expectedSeparator closing)

/-- A sequence whose items are read by `item?`, which is absent when no more nesting is allowed. -/
def sequenceOf (item? : Option (Reader Value)) (opening closing : UInt8) : Reader (List Value) := do
  expect opening
  match item? with
  | none => failBehind .nestingTooDeep
  | some item =>
    modify fun c => { c with depth := c.depth + 1 }
    let vs ←
      if (← peek) == closing then do
        advance
        pure []
      else fun c => items item closing (c.size - c.pos) [] c
    modify fun c => { c with depth := c.depth - 1 }
    return vs

/-- A value whose items are read by `item?`. -/
def valueOf (item? : Option (Reader Value)) : Reader Value := do
  let b ← peek
  if b == '-'.toUInt8 || isDigit b then return .integer (← integer)
  else if b == '"'.toUInt8 then return .string (← string)
  else if b == '\x7b'.toUInt8 then return .list (← sequenceOf item? '\x7b'.toUInt8 '\x7d'.toUInt8)
  else if isNameStart b then
    let name ← identifier
    blanks
    if ← nextIs '['.toUInt8 then return .function name (← sequenceOf item? '['.toUInt8 ']'.toUInt8)
    else return .symbol name
  else fail (.unexpected b)

def valueWithin : (room : Nat) → Reader Value
  | 0 => valueOf none
  | room + 1 => valueOf (some (valueWithin room))

/-- The reader of items at a depth, absent where no more nesting is allowed. -/
def itemAt (depth : Nat) : Option (Reader Value) :=
  match maxDepth - depth with
  | 0 => none
  | room + 1 => some (valueWithin room)

def value : Reader Value := fun c => valueOf (itemAt c.depth) c

/-- Comma-separated values between two delimiters. -/
def sequence (opening closing : UInt8) : Reader (List Value) :=
  fun c => sequenceOf (itemAt c.depth) opening closing c

/-- One value with nothing but blanks behind it. -/
def parse : Reader Value := do
  let v ← value
  blanks
  if (← get).atEnd then return v else fail .trailing

end Reader

def parse (text : Bytes) : Except ParseError Value :=
  match Reader.parse (Cursor.start text) with
  | .ok v _ => .ok v
  | .error e _ => .error e

end StateSpace.Wire
