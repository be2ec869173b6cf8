import StateSpace.Wire.Value

/-!
# Writing wire text

* `Value.render`: the text of a value. Names are written as they are; only string contents are escaped.
* `Writer`: a text under construction, to which values and parts of values are appended.
-/

namespace StateSpace.Wire

def escape (b : UInt8) : Bytes :=
  if b == '"'.toUInt8 then Bytes.ofChars ['\\', '"']
  else if b == '\\'.toUInt8 then Bytes.ofChars ['\\', '\\']
  else if b == '\n'.toUInt8 then Bytes.ofChars ['\\', 'n']
  else if b == '\t'.toUInt8 then Bytes.ofChars ['\\', 't']
  else if b == '\r'.toUInt8 then Bytes.ofChars ['\\', 'r']
  else [b]

def quote (content : Bytes) : Bytes := '"'.toUInt8 :: (content.flatMap escape ++ ['"'.toUInt8])

mutual

def Value.render : Value → Bytes
  | .integer n => Bytes.decimal n.toInt
  | .string content => quote content
  | .symbol name => name
  | .list items => '\x7b'.toUInt8 :: (Value.renderItems items ++ ['\x7d'.toUInt8])
  | .function head args => head ++ '['.toUInt8 :: (Value.renderItems args ++ [']'.toUInt8])

def Value.renderItems : List Value → Bytes
  | [] => []
  | v :: vs => v.render ++ Value.renderTail vs

def Value.renderTail : List Value → Bytes
  | [] => []
  | v :: vs => ','.toUInt8 :: ' '.toUInt8 :: (v.render ++ Value.renderTail vs)

end

structure Writer where
  text : Bytes
  deriving DecidableEq, Repr

namespace Writer

def empty : Writer := ⟨[]⟩

def write (w : Writer) (v : Value) : Writer := ⟨w.text ++ v.render⟩

def writeSymbol (w : Writer) (name : Bytes) : Writer := w.write (.symbol name)

def writeInteger (w : Writer) (n : Int64) : Writer := w.write (.integer n)

def writeString (w : Writer) (content : Bytes) : Writer := w.write (.string content)

def writeList (w : Writer) (items : List Value) : Writer := w.write (.list items)

def writeFunction (w : Writer) (head : Bytes) (args : List Value) : Writer := w.write (.function head args)

/-- Hands the text over and starts afresh. -/
def release (w : Writer) : Bytes × Writer := (w.text, empty)

def clear (_ : Writer) : Writer := empty

end Writer

end StateSpace.Wire
