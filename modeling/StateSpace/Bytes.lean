/-!
# Byte strings

* `Bytes`: the texts that cross a wire, as lists of bytes.
* `isBlank`, `isDigit`, `isLetter`, `isNameByte`: the ASCII classes of a byte; a byte above 127 is in none of them.
* `Bytes.ofString`, `Bytes.toText`: a byte and the character of the same code stand for each other.
* `Bytes.decimal`: the decimal text of an integer.
* `untilNul`: a text up to its first NUL, which is where a reader of NUL-terminated text stops.
-/

namespace StateSpace

abbrev Bytes := List UInt8

/-! ## ASCII classes -/

/-- Space, tab, line feed, vertical tab, form feed and carriage return. -/
def isBlank (b : UInt8) : Bool := b == 32 || (9 ≤ b && b ≤ 13)

def isDigit (b : UInt8) : Bool := 48 ≤ b && b ≤ 57

def isLetter (b : UInt8) : Bool := (65 ≤ b && b ≤ 90) || (97 ≤ b && b ≤ 122)

/-- The bytes of a name: letters, digits and the dollar sign. -/
def isNameByte (b : UInt8) : Bool := isLetter b || isDigit b || b == '$'.toUInt8

/-- The bytes a name starts with: letters and the dollar sign. -/
def isNameStart (b : UInt8) : Bool := isLetter b || b == '$'.toUInt8

theorem isNameByte_of_isNameStart {b : UInt8} (h : isNameStart b) : isNameByte b := by
  simp only [isNameStart, isNameByte, Bool.or_eq_true] at *
  rcases h with h | h <;> simp [h]

/-! ## Text -/

def Bytes.ofChars (cs : List Char) : Bytes := cs.map Char.toUInt8

def Bytes.ofString (s : String) : Bytes := Bytes.ofChars s.toList

def Bytes.toText (b : Bytes) : String := String.ofList (b.map (fun x => Char.ofNat x.toNat))

/-- What a text of bytes is read as are these bytes, whatever encoding they are in. -/
theorem Bytes.ofString_toText (b : Bytes) : Bytes.ofString b.toText = b := by
  rw [Bytes.ofString, Bytes.toText, String.toList_ofList, Bytes.ofChars, List.map_map]
  refine (List.map_congr_left fun x _ => ?_).trans (List.map_id b)
  have hx : x.toNat < 256 := x.toNat_lt
  have hvalid : Nat.isValidChar x.toNat := Or.inl (by omega)
  have hcode : (Char.ofNat x.toNat).toNat = x.toNat := by
    rw [Char.ofNat, dif_pos hvalid]
    rfl
  apply UInt8.toNat_inj.1
  show (Char.ofNat x.toNat).toNat % 256 = x.toNat
  rw [hcode]
  exact Nat.mod_eq_of_lt hx

/-- The decimal text of an integer, with a minus sign in front of a negative one. -/
def Bytes.decimal : Int → Bytes
  | .ofNat n => Bytes.ofChars (Nat.toDigits 10 n)
  | .negSucc n => '-'.toUInt8 :: Bytes.ofChars (Nat.toDigits 10 (n + 1))

def untilNul (s : String) : String := String.ofList (s.toList.takeWhile (· != Char.ofNat 0))

end StateSpace
