import StateSpace.Proofs.Wire.Parse

/-!
# The language of wire text

The grammar `IsText` and the reader `parse` describe the same language, up to the bound on nesting.

* `isBlank_iff_mem`, `isDigit_iff_mem`, `isIdentifier_iff_mem`, `unescape_eq_lookup` : the terminals of the grammar, byte
  by byte;
* `IsText.unique` : a text denotes at most one value, however deep it nests;
* `parse_iff_isText` : the reader accepts exactly the texts of the grammar that nest at most 512 deep.
-/

namespace StateSpace.Wire

/-! ## Terminals -/

def letters : Bytes := Bytes.ofString "ABCDEFGHIJKLMNOPQRSTUVWXYZabcdefghijklmnopqrstuvwxyz"

def digits : Bytes := Bytes.ofString "0123456789"

def spaces : Bytes := Bytes.ofString " \t\n\x0b\x0c\r"

/-- What may stand behind a backslash, with the byte that the two stand for. -/
def escapes : List (UInt8 × UInt8) :=
  [('"'.toUInt8, '"'.toUInt8), ('\\'.toUInt8, '\\'.toUInt8), ('n'.toUInt8, '\n'.toUInt8), ('t'.toUInt8, '\t'.toUInt8),
    ('r'.toUInt8, '\r'.toUInt8)]

theorem forall_byte {p : UInt8 → Prop} (h : ∀ n : Fin 256, p (UInt8.ofFin n)) (b : UInt8) : p b := h b.toFin

theorem isBlank_iff_mem (b : UInt8) : isBlank b = true ↔ b ∈ spaces := by
  revert b
  apply forall_byte
  decide +kernel

theorem isDigit_iff_mem (b : UInt8) : isDigit b = true ↔ b ∈ digits := by
  revert b
  apply forall_byte
  decide +kernel

theorem isNameStart_iff_mem (b : UInt8) : isNameStart b = true ↔ b ∈ letters ∨ b = '$'.toUInt8 := by
  revert b
  apply forall_byte
  decide +kernel

theorem isIdentifier_iff_mem (name : Bytes) : IsIdentifier name = true ↔ ∃ b u, name = b :: u ∧
    (b ∈ letters ∨ b = '$'.toUInt8) ∧ ∀ c ∈ u, c ∈ letters ∨ c ∈ digits ∨ c = '$'.toUInt8 := by
  have hbyte : ∀ c, isNameByte c = true ↔ c ∈ letters ∨ c ∈ digits ∨ c = '$'.toUInt8 := by
    intro c
    rw [isNameByte_iff, isNameStart_iff_mem, isDigit_iff_mem, or_assoc, or_comm (a := c = _)]
  cases name with
  | nil => simp [IsIdentifier]
  | cons b u => simp [IsIdentifier, isNameStart_iff_mem, hbyte]

theorem unescape_eq_lookup (e : UInt8) : Reader.unescape e = escapes.lookup e := by
  revert e
  apply forall_byte
  decide +kernel

/-! ## One value for each text -/

/-- A text of the grammar is read as the value it denotes by a reader with room for its nesting. -/
theorem IsText.reads {text : Bytes} {v : Value} (h : IsText text v) {room : Nat} (hroom : v.nesting ≤ room) :
    ∃ c, Reader.valueWithin room (Cursor.start text) = .ok v c := by
  obtain ⟨ws, t, ws', rfl, hw, hd, hw'⟩ := h
  have hends : Ends ws' := by
    intro b hb
    rw [trim_blank hw'] at hb
    cases hb
  obtain ⟨r, haccepts, -⟩ := Reader.Accepts.of_denotes hd hroom hw hends
  rw [Cursor.start_eq]
  exact ⟨_, ((Reader.valueWithin_gives room _).run le_rfl v _).2 ⟨r, haccepts, rfl⟩⟩

/-- **A text denotes at most one value.** -/
theorem IsText.unique {text : Bytes} {v v' : Value} (h : IsText text v) (h' : IsText text v') : v = v' := by
  -- one reader with room for both values reads both, so they are the same
  obtain ⟨c, hc⟩ := h.reads (Nat.le_max_left v.nesting v'.nesting)
  obtain ⟨c', hc'⟩ := h'.reads (Nat.le_max_right v.nesting v'.nesting)
  rw [hc] at hc'
  cases hc'
  rfl

/-! ## The reader and the grammar -/

/-- **The reader accepts exactly its grammar**, up to a nesting of 512, and the grammar is unambiguous. Its terminals
are the bytes named here. -/
theorem parse_iff_isText :
    ((∀ b, isBlank b = true ↔ b ∈ spaces) ∧
      (∀ b, isDigit b = true ↔ b ∈ digits) ∧
      (∀ name, IsIdentifier name = true ↔ ∃ b u, name = b :: u ∧ (b ∈ letters ∨ b = '$'.toUInt8) ∧
        ∀ c ∈ u, c ∈ letters ∨ c ∈ digits ∨ c = '$'.toUInt8) ∧
      ∀ e, Reader.unescape e = escapes.lookup e) ∧
    (∀ (text : Bytes) (v : Value), parse text = .ok v ↔ IsText text v ∧ v.nesting ≤ 512) ∧
    (∀ (text : Bytes) (v v' : Value), IsText text v → IsText text v' → v = v') ∧
    ∀ text : Bytes, (∀ v, IsText text v → 512 < v.nesting) → ∃ e : ParseError, parse text = .error e := by
  refine ⟨⟨isBlank_iff_mem, isDigit_iff_mem, isIdentifier_iff_mem, unescape_eq_lookup⟩, fun text v => parse_eq_ok_iff,
    fun text v v' h h' => h.unique h', fun text hno => ?_⟩
  cases hp : parse text with
  | error e => exact ⟨e, rfl⟩
  | ok v =>
    obtain ⟨htext, hdepth⟩ := parse_eq_ok_iff.1 hp
    have hdeep := hno v htext
    have hbound : v.nesting ≤ 512 := hdepth
    omega

/-- Blanks at every place where the grammar has them, and an empty list. -/
theorem parse_iff_isText_blanks :
    IsText (Bytes.ofString " f\t[ -7 ,\n\x7b \x7d ]\r")
      (.function (Bytes.ofString "f") [.integer (-7), .list []]) ∧
    ¬ (∃ v, IsText (Bytes.ofString "\x7b1,\x7d") v ∧ v.nesting ≤ 512) ∧
    ∃ e, parse (Bytes.ofString "\x7b1,\x7d") = .error e := by
  obtain ⟨-, hiff, -, hrefuse⟩ := parse_iff_isText
  have hread : parse (Bytes.ofString " f\t[ -7 ,\n\x7b \x7d ]\r") =
      .ok (.function (Bytes.ofString "f") [.integer (-7), .list []]) := by decide +kernel
  have hcomma : ∀ v, parse (Bytes.ofString "\x7b1,\x7d") ≠ .ok v := by
    have herror : parse (Bytes.ofString "\x7b1,\x7d") = .error ⟨.unexpected '\x7d'.toUInt8, 3⟩ := by decide +kernel
    intro v hv
    rw [herror] at hv
    cases hv
  have hno : ∀ v, IsText (Bytes.ofString "\x7b1,\x7d") v → 512 < v.nesting := by
    intro v hv
    by_contra hle
    exact hcomma v ((hiff _ v).2 ⟨hv, by omega⟩)
  refine ⟨((hiff _ _).1 hread).1, ?_, hrefuse _ hno⟩
  rintro ⟨v, hv, hle⟩
  have hlt := hno v hv
  omega

end StateSpace.Wire
