import StateSpace.Proofs.Wire.Completion

/-!
# Integers are read exactly

* `Begins r ws negative ds rest` : behind blanks `ws` and a sign or none, the bytes `r` go on with digits `ds`, as far as
  digits go, and `rest`; `Signed` : the same before the digits are looked at;
* `countDown_append` : counting down by digits passes through the values that the first of them lead to, so that
  `Contained` speaks of all numbers that are computed on the way; `isWord_round` : those of one round;
* `Begins.integer_ok`, `Begins.integer_error`, `Signed.integer_error` : what the reader of integers does;
* `integer_exact` : it returns the integer denoted if the words have it, computing with words only.
-/

namespace StateSpace.Wire

variable {r u ws ds rest : Bytes} {negative : Bool}

def IsWord (n : Int) : Prop := -2 ^ 63 ≤ n ∧ n ≤ 2 ^ 63 - 1

instance (n : Int) : Decidable (IsWord n) := inferInstanceAs (Decidable (_ ∧ _))

theorem isWord_toInt (v : Int64) : IsWord v.toInt := by
  have hlo := Int64.le_toInt v
  have hhi := Int64.toInt_lt v
  unfold IsWord
  omega

def sign (negative : Bool) : Bytes := if negative then ['-'.toUInt8] else []

/-- The integer that a sign and digits denote. -/
def denoted (negative : Bool) (ds : Bytes) : Int := if negative then -(numeral 0 ds : Int) else numeral 0 ds

/-- The bytes start, behind blanks, with an integer: a sign or none, and digits as far as they go. -/
structure Begins (r ws : Bytes) (negative : Bool) (ds rest : Bytes) : Prop where
  eq : r = ws ++ (sign negative ++ (ds ++ rest))
  blank : Blank ws
  ne_nil : ds ≠ []
  digits : ∀ b ∈ ds, isDigit b = true
  clear : Clear isDigit rest

/-- The bytes start with blanks and a sign or none, and `u` is behind them. -/
structure Signed (r ws : Bytes) (negative : Bool) (u : Bytes) : Prop where
  eq : r = ws ++ (sign negative ++ u)
  trim_eq : trim r = sign negative ++ u
  plain : negative = false → u.head? ≠ some '-'.toUInt8

theorem exists_signed (r : Bytes) : ∃ ws negative u, Blank ws ∧ Signed r ws negative u := by
  obtain ⟨ws, hw, hr⟩ := exists_blank r
  by_cases hhead : (trim r).head? = some '-'.toUInt8
  · obtain ⟨u, hu⟩ := List.head?_eq_some_iff.1 hhead
    rw [hu] at hr
    exact ⟨ws, true, u, hw, hr, hu, fun h => absurd h (by decide)⟩
  · exact ⟨ws, false, trim r, hw, hr, rfl, fun _ => hhead⟩

theorem Begins.signed (h : Begins r ws negative ds rest) : Signed r ws negative (ds ++ rest) := by
  obtain ⟨rfl, hw, hne, hd, -⟩ := h
  obtain ⟨b, ds, rfl⟩ := List.exists_cons_of_ne_nil hne
  have hb := hd b List.mem_cons_self
  refine ⟨rfl, ?_, fun _ hhead => ?_⟩
  · cases negative with
    | true => exact trim_behind hw (by decide)
    | false => exact trim_behind hw (Opens.not_blank (v := .integer 0) (.inr hb))
  · rw [Option.some.inj hhead] at hb
    exact absurd hb (by decide)

theorem Signed.begins (h : Signed r ws negative u) (hw : Blank ws) (hu : ¬Clear isDigit u) :
    Begins r ws negative (u.takeWhile isDigit) (u.dropWhile isDigit) := by
  obtain ⟨hsplit, hd, hclear⟩ : u = u.takeWhile isDigit ++ u.dropWhile isDigit ∧ _ ∧ _ := span_eq_iff.1 ⟨rfl, rfl⟩
  refine ⟨?_, hw, ?_, hd, hclear⟩
  · rw [← hsplit]
    exact h.eq
  · intro hnil
    rw [hnil, List.nil_append] at hsplit
    rw [hsplit] at hu
    exact hu hclear

/-! ## Counting down -/

namespace Reader

theorem countDown_append {front : Bytes} {value value' : Int64} (back : Bytes) (h : countDown value front = .ok value') :
    countDown value (front ++ back) = countDown value' back := by
  induction front generalizing value with
  | nil =>
    cases h
    rfl
  | cons b front ih =>
    rw [countDown] at h
    rw [List.cons_append, countDown]
    split at h
    · cases h
    · rename_i hguard
      rw [if_neg hguard]
      exact ih h

def digitOf (b : UInt8) : Int64 := (b - '0'.toUInt8).toUInt64.toInt64

/-- Reading digits behind a sign or none computes with words only, in the bound that a digit is held against as in
what takes it. -/
structure Contained (negative : Bool) (ds : Bytes) : Prop where
  round : ∀ front b back value, ds = front ++ b :: back → countDown 0 front = .ok value →
    countDown 0 ds = countDown value (b :: back) ∧ IsWord (Int64.minValue.toInt + (digitOf b).toInt) ∧
    (¬value < (Int64.minValue + digitOf b) / 10 →
      IsWord (value.toInt * 10) ∧ IsWord (value.toInt * 10 - (digitOf b).toInt))
  negation : negative = false → ∀ value, countDown 0 ds = .ok value → value ≠ Int64.minValue → IsWord (-value.toInt)

/-- One round, from a value that is not above 0: a digit that is taken does not pass the least integer, so neither does
what takes it. -/
theorem isWord_round {value : Int64} {m : Nat} {b : UInt8} (hvalue : value.toInt = -m) (hb : isDigit b = true) :
    IsWord (Int64.minValue.toInt + (digitOf b).toInt) ∧
    (¬value < (Int64.minValue + digitOf b) / 10 →
      IsWord (value.toInt * 10) ∧ IsWord (value.toInt * 10 - (digitOf b).toInt)) := by
  have hdigit : (digitOf b).toInt = (b.toNat - 48 : Nat) := toInt_digit hb
  obtain ⟨hlo, hhi⟩ := isDigit_iff.1 hb
  unfold IsWord
  rw [lt_quotient_iff hvalue hdigit (by omega), hdigit, hvalue, Int64.toInt_minValue]
  omega

theorem contained (negative : Bool) (hd : ∀ b ∈ ds, isDigit b = true) : Contained negative ds := by
  constructor
  · rintro front b back value rfl hfront
    have hvalue : value.toInt = -(numeral 0 front : Int) :=
      (countDown_eq_ok (fun b' hb' => hd b' (List.mem_append_left _ hb')) rfl).1 hfront
    have hb := hd b (List.mem_append_right front List.mem_cons_self)
    exact ⟨countDown_append _ hfront, isWord_round hvalue hb⟩
  · intro _ value _ hmin
    have hne : value.toInt ≠ -2 ^ 63 := fun h => hmin (Int64.toInt_inj.1 h)
    obtain ⟨hlo, hhi⟩ := isWord_toInt value
    unfold IsWord
    omega

end Reader

/-! ## The reader of integers -/

open Reader

variable {n d : Nat}

theorem Signed.length_le (h : Signed r ws negative u) : u.length ≤ r.length := by
  rw [h.eq, ← List.append_assoc]
  exact (List.suffix_append _ u).length_le

theorem Signed.integer_eq (h : Signed r ws negative u) (hn : r.length ≤ n) :
    integer (.facing n d r) = magnitude (n - (sign negative ++ u).length) negative (.facing n d u) := by
  cases negative with
  | true => exact integer_run_minus h.trim_eq hn
  | false =>
    have htrim : trim r = u := h.trim_eq
    have hhead := h.plain rfl
    rw [← htrim] at hhead ⊢
    exact integer_run_plain hhead hn

theorem Signed.integer_error (h : Signed r ws negative u) (hu : Clear isDigit u) (hn : r.length ≤ n) :
    ∃ c, integer (.facing n d r) = .error ⟨.expectedDigits, c.pos⟩ c := by
  have hle := h.length_le.trans hn
  rw [h.integer_eq hn]
  cases hrun : magnitude (n - (sign negative ++ u).length) negative (.facing n d u) with
  | ok v c =>
    obtain ⟨⟨hne, -⟩, -⟩ := (magnitude_run hle).1 hrun
    exact absurd (takeWhile_of_clear hu) hne
  | error e c =>
    rcases magnitude_error hle hrun with ⟨-, rfl, rfl⟩ | ⟨⟨ds, rest, hsplit, hne, hd, -⟩, -⟩
    · exact ⟨.facing n d u, rfl⟩
    · exact absurd (no_digits hu hd hsplit) hne

/-- The integer denoted is returned, and nothing else. -/
theorem Begins.integer_ok (h : Begins r ws negative ds rest) (hn : r.length ≤ n) {v : Int64} {c : Cursor} :
    integer (.facing n d r) = .ok v c ↔ v.toInt = denoted negative ds ∧ c = .facing n d rest := by
  have hle := h.signed.length_le.trans hn
  obtain ⟨htake, hdrop⟩ := span_eq_iff.2 ⟨rfl, h.digits, h.clear⟩
  rw [h.signed.integer_eq hn, magnitude_run hle, htake, hdrop, countDown_signed h.digits, denoted,
    and_iff_right h.ne_nil]

/-- An integer beyond the words is reported at its first byte. -/
theorem Begins.integer_error (h : Begins r ws negative ds rest) (hword : ¬IsWord (denoted negative ds))
    (hn : r.length ≤ n) : ∃ c, integer (.facing n d r) =
      .error ⟨.integerTooLarge, n - (sign negative ++ (ds ++ rest)).length⟩ c := by
  have hle := h.signed.length_le.trans hn
  cases hrun : integer (.facing n d r) with
  | ok v c =>
    have hv := ((h.integer_ok hn).1 hrun).1
    exact absurd (hv ▸ isWord_toInt v) hword
  | error e c =>
    rw [h.signed.integer_eq hn] at hrun
    rcases magnitude_error hle hrun with ⟨hclear, -⟩ | ⟨-, rfl, -⟩
    · exact absurd (no_digits hclear h.digits rfl) h.ne_nil
    · exact ⟨c, rfl⟩

/-- The cursor at a position of a text, inside the given number of lists. -/
def Cursor.placed (text : Bytes) (depth pos : Nat) : Cursor := ⟨text.length, text.drop pos, pos, depth⟩

theorem Cursor.placed_eq {text : Bytes} {pos : Nat} (depth : Nat) (h : pos ≤ text.length) :
    placed text depth pos = facing text.length depth (text.drop pos) := by
  have hpos : text.length - (text.drop pos).length = pos := by
    rw [List.length_drop]
    omega
  rw [placed, facing, hpos]

theorem Cursor.placed_behind {text front rest : Bytes} {pos : Nat} (depth : Nat) (hpos : pos ≤ text.length)
    (h : text.drop pos = front ++ rest) : placed text depth (pos + front.length) = facing text.length depth rest := by
  have hdrop : text.drop (pos + front.length) = rest := by
    rw [← List.drop_drop, h, List.drop_left]
  have hlen := congrArg List.length h
  rw [List.length_drop, List.length_append] at hlen
  rw [placed_eq depth (by omega), hdrop]

/-- **Integers are read exactly**, at every position of a text: returned if they are of 64 bits, reported at their
first byte if not, and with nothing beyond 64 bits computed on the way. -/
theorem integer_exact (text : Bytes) (depth pos : Nat) (hpos : pos ≤ text.length) :
    (∀ ws negative ds rest, Begins (text.drop pos) ws negative ds rest →
      ((∃ v : Int64, v.toInt = denoted negative ds ∧ integer (.placed text depth pos) =
          .ok v (.placed text depth (pos + (ws ++ (sign negative ++ ds)).length))) ↔ IsWord (denoted negative ds)) ∧
      (¬IsWord (denoted negative ds) → ∃ c, integer (.placed text depth pos) =
          .error ⟨.integerTooLarge, pos + ws.length⟩ c) ∧
      Contained negative ds) ∧
    ((∀ ws negative ds rest, ¬Begins (text.drop pos) ws negative ds rest) →
      ∃ c, integer (.placed text depth pos) = .error ⟨.expectedDigits, c.pos⟩ c) ∧
    ParseFault.integerTooLarge.text = "Integer too large" ∧ ParseFault.expectedDigits.text = "Expected digits" := by
  have hn : (text.drop pos).length ≤ text.length := (List.drop_suffix pos text).length_le
  rw [Cursor.placed_eq depth hpos]
  refine ⟨?_, ?_, rfl, rfl⟩
  · intro ws negative ds rest h
    have hsplit : text.drop pos = ws ++ (sign negative ++ ds) ++ rest := by simp only [h.eq, List.append_assoc]
    have hstart : text.length - (sign negative ++ (ds ++ rest)).length = pos + ws.length := by
      have hlen := congrArg List.length h.eq
      rw [List.length_drop, List.length_append] at hlen
      omega
    rw [Cursor.placed_behind depth hpos hsplit, ← hstart]
    refine ⟨⟨?_, fun hword => ?_⟩, fun hword => h.integer_error hword hn, contained negative h.digits⟩
    · rintro ⟨v, hv, -⟩
      exact hv ▸ isWord_toInt v
    · obtain ⟨hlo, hhi⟩ := hword
      have hv : (Int64.ofInt (denoted negative ds)).toInt = denoted negative ds :=
        Int64.toInt_ofInt_of_le hlo (by omega)
      exact ⟨_, hv, (h.integer_ok hn).2 ⟨hv, rfl⟩⟩
  · intro hnone
    obtain ⟨ws, negative, u, hw, hsigned⟩ := exists_signed (text.drop pos)
    by_cases hu : Clear isDigit u
    · exact hsigned.integer_error hu hn
    · exact absurd (hsigned.begins hw hu) (hnone _ _ _ _)

/-- The least integer with zeros in front, the first one that is too large, and a sign without digits. -/
def extremes : Bytes := Bytes.ofString "= -009223372036854775808 9223372036854775808 -"

theorem integer_exact_extremes :
    (∃ v : Int64, v.toInt = -2 ^ 63 ∧ integer (.placed extremes 0 1) = .ok v (.placed extremes 0 24)) ∧
    (∃ c, integer (.placed extremes 0 24) = .error ⟨.integerTooLarge, 25⟩ c) ∧
    ∃ c, integer (.placed extremes 0 44) = .error ⟨.expectedDigits, c.pos⟩ c := by
  have hleast : Begins (extremes.drop 1) (Bytes.ofString " ") true (Bytes.ofString "009223372036854775808")
      (Bytes.ofString " 9223372036854775808 -") :=
    ⟨by decide +kernel, List.all_eq_true.1 (by decide), by decide, List.all_eq_true.1 (by decide), clear_cons.2 (by decide)⟩
  have hlarge : Begins (extremes.drop 24) (Bytes.ofString " ") false (Bytes.ofString "9223372036854775808")
      (Bytes.ofString " -") :=
    ⟨by decide +kernel, List.all_eq_true.1 (by decide), by decide, List.all_eq_true.1 (by decide), clear_cons.2 (by decide)⟩
  refine ⟨?_, ?_, ?_⟩
  · obtain ⟨hread, -⟩ := integer_exact extremes 0 1 (by decide)
    exact (hread _ _ _ _ hleast).1.2 (by decide +kernel)
  · obtain ⟨hread, -⟩ := integer_exact extremes 0 24 (by decide)
    exact (hread _ _ _ _ hlarge).2.1 (by decide +kernel)
  · obtain ⟨-, hmissed, -⟩ := integer_exact extremes 0 44 (by decide)
    apply hmissed
    intro ws negative ds rest h
    obtain ⟨b, ds, rfl⟩ := List.exists_cons_of_ne_nil h.ne_nil
    have hb : b ∈ extremes.drop 44 := by
      rw [h.eq]
      simp
    have hnone : ∀ b ∈ extremes.drop 44, (!isDigit b) = true := List.all_eq_true.1 (by decide +kernel)
    have hdigit := hnone b hb
    rw [h.digits b List.mem_cons_self] at hdigit
    exact absurd hdigit (by decide)

end StateSpace.Wire
