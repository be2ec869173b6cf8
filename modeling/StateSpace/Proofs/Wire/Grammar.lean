import Mathlib.Data.List.Basic
import StateSpace.Wire.Reader
import StateSpace.Wire.Writer

/-!
# The grammar of wire text

* `IsNumeral`, `IsBody` : the texts of integers, and of strings without their quotes;
* `Denotes t v` : the text `t`, without blanks around it, denotes the value `v`; `Items t vs`, `Sequence t vs` : so do the
  texts between delimiters; `IsText text v` : so does a whole text;
* `Denotes.wellNamed` : only well-named values are denoted; `denotes_render` : and each of them is by its rendering.
-/

namespace StateSpace.Wire

def Blank (ws : Bytes) : Prop := ∀ b ∈ ws, isBlank b = true

/-- The number that digits denote when they follow those of `n`. -/
def numeral (n : Nat) (ds : Bytes) : Nat := ds.foldl (fun n b => 10 * n + (b.toNat - 48)) n

/-- The texts of an integer: digits, with a minus sign in front or not. -/
inductive IsNumeral : Bytes → Int64 → Prop
  | plain {ds : Bytes} {n : Int64} (hne : ds ≠ []) (hd : ∀ b ∈ ds, isDigit b = true) (hv : n.toInt = numeral 0 ds) :
    IsNumeral ds n
  | minus {ds : Bytes} {n : Int64} (hne : ds ≠ []) (hd : ∀ b ∈ ds, isDigit b = true) (hv : n.toInt = -numeral 0 ds) :
    IsNumeral ('-'.toUInt8 :: ds) n

/-- The texts of a string's content: bytes as they are, and escapes. -/
inductive IsBody : Bytes → Bytes → Prop
  | nil : IsBody [] []
  | plain {b : UInt8} {body s : Bytes} (hq : b ≠ '"'.toUInt8) (hb : b ≠ '\\'.toUInt8) (h : IsBody body s) :
    IsBody (b :: body) (b :: s)
  | escaped {e b : UInt8} {body s : Bytes} (he : Reader.unescape e = some b) (h : IsBody body s) :
    IsBody ('\\'.toUInt8 :: e :: body) (b :: s)

mutual

inductive Denotes : Bytes → Value → Prop
  | integer {t : Bytes} {n : Int64} (h : IsNumeral t n) : Denotes t (.integer n)
  | string {body s : Bytes} (h : IsBody body s) : Denotes ('"'.toUInt8 :: (body ++ ['"'.toUInt8])) (.string s)
  | symbol {name : Bytes} (h : IsIdentifier name = true) : Denotes name (.symbol name)
  | list {t : Bytes} {vs : List Value} (h : Items t vs) :
    Denotes ('\x7b'.toUInt8 :: (t ++ ['\x7d'.toUInt8])) (.list vs)
  | function {head ws t : Bytes} {vs : List Value} (hh : IsIdentifier head = true) (hw : Blank ws) (h : Items t vs) :
    Denotes (head ++ (ws ++ '['.toUInt8 :: (t ++ [']'.toUInt8]))) (.function head vs)

inductive Items : Bytes → List Value → Prop
  | none {ws : Bytes} (hw : Blank ws) : Items ws []
  | some {t : Bytes} {vs : List Value} (h : Sequence t vs) : Items t vs

inductive Sequence : Bytes → List Value → Prop
  | one {ws t ws' : Bytes} {v : Value} (hw : Blank ws) (h : Denotes t v) (hw' : Blank ws') :
    Sequence (ws ++ (t ++ ws')) [v]
  | more {ws t ws' u : Bytes} {v : Value} {vs : List Value} (hw : Blank ws) (h : Denotes t v) (hw' : Blank ws')
      (hs : Sequence u vs) : Sequence (ws ++ (t ++ (ws' ++ ','.toUInt8 :: u))) (v :: vs)

end

/-- The texts of a value, with blanks around them or not. -/
def IsText (text : Bytes) (v : Value) : Prop :=
  ∃ ws t ws', text = ws ++ (t ++ ws') ∧ Blank ws ∧ Denotes t v ∧ Blank ws'

theorem blank_nil : Blank [] := fun _ h => absurd h List.not_mem_nil

theorem nestingAll_le_iff {vs : List Value} {n : Nat} : Value.nestingAll vs ≤ n ↔ ∀ v ∈ vs, v.nesting ≤ n := by
  induction vs with
  | nil => simp [Value.nestingAll]
  | cons v vs ih => rw [Value.nestingAll, Nat.max_le, ih, List.forall_mem_cons]

/-! ## Denoted values are well named -/

mutual

theorem Denotes.wellNamed : ∀ {v : Value} {t : Bytes}, Denotes t v → v.WellNamed = true
  | .integer _, _, _ => by rw [Value.WellNamed]
  | .string _, _, _ => by rw [Value.WellNamed]
  | .symbol name, _, h => by
    cases h with
    | symbol h => rwa [Value.WellNamed]
  | .list vs, _, h => by
    cases h with
    | list h => rw [Value.WellNamed, Items.wellNamed h]
  | .function head vs, _, h => by
    cases h with
    | function hh _ h => rw [Value.WellNamed, hh, Items.wellNamed h, Bool.and_self]

theorem Items.wellNamed : ∀ {vs : List Value} {t : Bytes}, Items t vs → Value.WellNamedAll vs = true
  | [], _, _ => by rw [Value.WellNamedAll]
  | v :: vs, _, h => by
    cases h with
    | some h =>
      cases h with
      | one _ h _ => rw [Value.WellNamedAll, h.wellNamed, Value.WellNamedAll, Bool.and_self]
      | more _ h _ hs => rw [Value.WellNamedAll, h.wellNamed, Items.wellNamed (.some hs), Bool.and_self]

end

/-! ## Renderings denote their values -/

theorem isDigit_iff {b : UInt8} : isDigit b = true ↔ 48 ≤ b.toNat ∧ b.toNat ≤ 57 := by
  simp [isDigit, UInt8.le_iff_toNat_le]

theorem toNat_toUInt8 {c : Char} (h : c.isDigit = true) : c.toUInt8.toNat = c.toNat ∧ isDigit c.toUInt8 = true := by
  have hrange : 48 ≤ c.toNat ∧ c.toNat ≤ 57 := by
    rw [Char.isDigit, Bool.and_eq_true, decide_eq_true_eq, decide_eq_true_eq] at h
    exact h
  have htoNat : c.toUInt8.toNat = c.toNat := by
    show c.toNat % 256 = c.toNat
    omega
  refine ⟨htoNat, ?_⟩
  rw [isDigit_iff, htoNat]
  exact hrange

theorem numeral_ofChars {cs : List Char} (h : ∀ c ∈ cs, c.isDigit = true) (n : Nat) :
    numeral n (Bytes.ofChars cs) = Nat.ofDigitChars 10 cs n := by
  induction cs generalizing n with
  | nil => rfl
  | cons c cs ih =>
    have hc := (toNat_toUInt8 (h c List.mem_cons_self)).1
    have hrest := ih (fun c' hc' => h c' (List.mem_cons_of_mem _ hc')) (10 * n + (c.toNat - 48))
    show numeral (10 * n + (c.toUInt8.toNat - 48)) (Bytes.ofChars cs) = _
    rw [hc, hrest]
    rfl

/-- The decimal text of a number consists of digits and denotes the number. -/
theorem decimal_digits (k : Nat) : Bytes.ofChars (Nat.toDigits 10 k) ≠ [] ∧
    (∀ b ∈ Bytes.ofChars (Nat.toDigits 10 k), isDigit b = true) ∧ numeral 0 (Bytes.ofChars (Nat.toDigits 10 k)) = k := by
  have hdigit : ∀ c ∈ Nat.toDigits 10 k, c.isDigit = true := fun c hc =>
    Nat.isDigit_of_mem_toDigits (by decide) (by decide) hc
  refine ⟨?_, fun b hb => ?_, ?_⟩
  · simp [Bytes.ofChars, Nat.toDigits_ne_nil]
  · obtain ⟨c, hc, rfl⟩ := List.mem_map.1 hb
    exact (toNat_toUInt8 (hdigit c hc)).2
  · rw [numeral_ofChars hdigit, Nat.ofDigitChars_toDigits (by decide) (by decide)]

theorem isNumeral_decimal (n : Int64) : IsNumeral (Bytes.decimal n.toInt) n := by
  cases hn : n.toInt with
  | ofNat k =>
    obtain ⟨hne, hd, hv⟩ := decimal_digits k
    rw [Bytes.decimal]
    exact .plain hne hd (by rw [hn, hv]; rfl)
  | negSucc k =>
    obtain ⟨hne, hd, hv⟩ := decimal_digits (k + 1)
    rw [Bytes.decimal]
    exact .minus hne hd (by rw [hn, hv]; rfl)

theorem IsBody.escape {body s : Bytes} (h : IsBody body s) (b : UInt8) : IsBody (Wire.escape b ++ body) (b :: s) := by
  unfold Wire.escape
  by_cases h1 : b = '"'.toUInt8
  · subst h1
    exact .escaped (by decide) h
  by_cases h2 : b = '\\'.toUInt8
  · subst h2
    exact .escaped (by decide) h
  by_cases h3 : b = '\n'.toUInt8
  · subst h3
    exact .escaped (by decide) h
  by_cases h4 : b = '\t'.toUInt8
  · subst h4
    exact .escaped (by decide) h
  by_cases h5 : b = '\r'.toUInt8
  · subst h5
    exact .escaped (by decide) h
  · simp only [beq_iff_eq, h1, h2, h3, h4, h5, if_false]
    exact .plain h1 h2 h

theorem isBody_escape (s : Bytes) : IsBody (s.flatMap escape) s := by
  induction s with
  | nil => exact .nil
  | cons b s ih => exact ih.escape b

mutual

/-- **A well-named value is denoted by its rendering.** -/
theorem denotes_render : ∀ (v : Value), v.WellNamed = true → Denotes v.render v
  | .integer n, _ => by
    rw [Value.render]
    exact .integer (isNumeral_decimal n)
  | .string s, _ => by
    rw [Value.render]
    exact .string (isBody_escape s)
  | .symbol name, h => by
    rw [Value.WellNamed] at h
    rw [Value.render]
    exact .symbol h
  | .list vs, h => by
    rw [Value.WellNamed] at h
    rw [Value.render]
    exact .list (items_render vs h)
  | .function head vs, h => by
    rw [Value.WellNamed, Bool.and_eq_true] at h
    rw [Value.render]
    have hd : Denotes (head ++ ([] ++ '['.toUInt8 :: (Value.renderItems vs ++ [']'.toUInt8]))) (.function head vs) :=
      .function h.1 blank_nil (items_render vs h.2)
    exact hd

theorem items_render : ∀ (vs : List Value), Value.WellNamedAll vs = true → Items (Value.renderItems vs) vs
  | [], _ => by
    rw [Value.renderItems]
    exact .none blank_nil
  | v :: vs, h => by
    rw [Value.WellNamedAll, Bool.and_eq_true] at h
    rw [Value.renderItems]
    exact .some (sequence_render vs h.2 blank_nil (denotes_render v h.1))

theorem sequence_render : ∀ (vs : List Value), Value.WellNamedAll vs = true → ∀ {ws t : Bytes} {v : Value}, Blank ws →
    Denotes t v → Sequence (ws ++ (t ++ Value.renderTail vs)) (v :: vs)
  | [], _, _, _, _, hw, h => by
    rw [Value.renderTail]
    exact .one hw h blank_nil
  | w :: vs, hn, ws, t, v, hw, h => by
    rw [Value.WellNamedAll, Bool.and_eq_true] at hn
    rw [Value.renderTail]
    have hspace : Blank [' '.toUInt8] := by
      intro b hb
      rw [List.mem_singleton.1 hb]
      decide
    have hrest := sequence_render vs hn.2 hspace (denotes_render w hn.1)
    exact .more hw h blank_nil hrest

end

end StateSpace.Wire
