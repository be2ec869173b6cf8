import Mathlib.Data.List.Forall2
import StateSpace.Proofs.Wire.Parse
import StateSpace.Wire.Codec

/-!
# Typed data and their texts

* `LawfulWireInt α` : the integers of `α` are those of its range, one for each;
* `toValue?_eq_ok_iff` : a datum has a value if and only if the datum is read off that value, so the two directions
  are one partial bijection;
* `Shape.oversized`, `toValue?_eq_error_iff` : what has no value contains an unsigned integer beyond the signed ones;
* `codec_partial_bijection` : the same through texts.
-/

namespace StateSpace.Wire

/-! ## Fixed-width integers -/

/-- The integers of the type are those of its range, and the signed 64-bit ones go at least as far down. -/
class LawfulWireInt (α : Type) [WireInt α] : Prop where
  least_le_toInt : ∀ x : α, WireInt.least α ≤ WireInt.toInt x
  toInt_le_greatest : ∀ x : α, WireInt.toInt x ≤ WireInt.greatest α
  ofInt_toInt : ∀ x : α, WireInt.ofInt (WireInt.toInt x) = x
  toInt_ofInt : ∀ n : Int, WireInt.least α ≤ n → n ≤ WireInt.greatest α → WireInt.toInt (WireInt.ofInt n : α) = n
  minValue_le : Int64.minValue.toInt ≤ WireInt.least α

instance : LawfulWireInt Int8 where
  least_le_toInt := Int8.le_toInt
  toInt_le_greatest := Int8.toInt_le
  ofInt_toInt := Int8.ofInt_toInt
  toInt_ofInt n hl hg := Int8.toInt_ofInt_of_le hl (Int.lt_add_one_of_le hg)
  minValue_le := by decide

instance : LawfulWireInt Int16 where
  least_le_toInt := Int16.le_toInt
  toInt_le_greatest := Int16.toInt_le
  ofInt_toInt := Int16.ofInt_toInt
  toInt_ofInt n hl hg := Int16.toInt_ofInt_of_le hl (Int.lt_add_one_of_le hg)
  minValue_le := by decide

instance : LawfulWireInt Int32 where
  least_le_toInt := Int32.le_toInt
  toInt_le_greatest := Int32.toInt_le
  ofInt_toInt := Int32.ofInt_toInt
  toInt_ofInt n hl hg := Int32.toInt_ofInt_of_le hl (Int.lt_add_one_of_le hg)
  minValue_le := by decide

instance : LawfulWireInt Int64 where
  least_le_toInt := Int64.le_toInt
  toInt_le_greatest := Int64.toInt_le
  ofInt_toInt := Int64.ofInt_toInt
  toInt_ofInt n hl hg := Int64.toInt_ofInt_of_le hl (Int.lt_add_one_of_le hg)
  minValue_le := by decide

theorem LawfulWireInt.unsigned {α : Type} [WireInt α] {size : Nat} {toNat : α → Nat} {ofNat : Nat → α}
    (hlt : ∀ x, toNat x < size) (hback : ∀ x, ofNat (toNat x) = x) (hnat : ∀ k < size, toNat (ofNat k) = k)
    (hleast : WireInt.least α = 0) (hgreatest : WireInt.greatest α + 1 = size)
    (htoInt : ∀ x : α, WireInt.toInt x = toNat x) (hofInt : ∀ n, (WireInt.ofInt n : α) = ofNat n.toNat) :
    LawfulWireInt α := by
  constructor
  case least_le_toInt =>
    intro x
    rw [hleast, htoInt]
    exact Int.natCast_nonneg _
  case toInt_le_greatest =>
    intro x
    have hx := hlt x
    rw [htoInt]
    omega
  case ofInt_toInt =>
    intro x
    rw [htoInt, hofInt, Int.toNat_natCast, hback]
  case toInt_ofInt =>
    intro n hl hg
    rw [htoInt, hofInt, hnat n.toNat (by omega), Int.toNat_of_nonneg (by omega)]
  case minValue_le =>
    rw [hleast]
    decide

instance : LawfulWireInt UInt8 :=
  .unsigned UInt8.toNat_lt (fun _ => UInt8.ofNat_toNat) (fun _ h => UInt8.toNat_ofNat_of_lt' h) rfl rfl
    (fun _ => rfl) fun _ => rfl

instance : LawfulWireInt UInt16 :=
  .unsigned UInt16.toNat_lt (fun _ => UInt16.ofNat_toNat) (fun _ h => UInt16.toNat_ofNat_of_lt' h) rfl rfl
    (fun _ => rfl) fun _ => rfl

instance : LawfulWireInt UInt32 :=
  .unsigned UInt32.toNat_lt (fun _ => UInt32.ofNat_toNat) (fun _ h => UInt32.toNat_ofNat_of_lt' h) rfl rfl
    (fun _ => rfl) fun _ => rfl

instance : LawfulWireInt UInt64 :=
  .unsigned UInt64.toNat_lt (fun _ => UInt64.ofNat_toNat) (fun _ h => UInt64.toNat_ofNat_of_lt' h) rfl rfl
    (fun _ => rfl) fun _ => rfl

theorem intToValue_eq {α : Type} [WireInt α] (x : α) : intToValue α x =
    if WireInt.toInt x ≤ WireInt.greatest Int64 then .ok (.integer (Int64.ofInt (WireInt.toInt x)))
    else .error (.exceedsWire (WireInt.toInt x)) := rfl

/-- An integer has a value if and only if it is read off that value. -/
theorem intToValue_eq_ok_iff {α : Type} [WireInt α] [LawfulWireInt α] {x : α} {v : Value} :
    intToValue α x = .ok v ↔ intOfValue α v = .ok x := by
  rw [intToValue_eq]
  constructor
  · intro h
    have hlow := LawfulWireInt.least_le_toInt x
    have hhigh := LawfulWireInt.toInt_le_greatest x
    have hleast := LawfulWireInt.minValue_le (α := α)
    split at h
    · rename_i hmax
      cases h
      have hword : (Int64.ofInt (WireInt.toInt x)).toInt = WireInt.toInt x :=
        LawfulWireInt.toInt_ofInt (α := Int64) _ (Int.le_trans hleast hlow) hmax
      rw [intOfValue, hword, if_pos ⟨hlow, hhigh⟩, LawfulWireInt.ofInt_toInt]
    · cases h
  · intro h
    cases v with
    | integer k =>
      rw [intOfValue] at h
      split at h
      · rename_i hrange
        cases h
        have hmax : k.toInt ≤ WireInt.greatest Int64 := LawfulWireInt.toInt_le_greatest k
        rw [LawfulWireInt.toInt_ofInt k.toInt hrange.1 hrange.2, if_pos hmax, Int64.ofInt_toInt]
      · cases h
    | string | symbol | list | function => cases h

/-- The only integers without a value are those beyond the signed ones. -/
theorem intToValue_eq_error_iff {α : Type} [WireInt α] {x : α} :
    (∃ e, intToValue α x = .error e) ↔ WireInt.greatest Int64 < WireInt.toInt x := by
  rw [intToValue_eq, ← Int.not_le]
  constructor
  · rintro ⟨e, h⟩ hle
    rw [if_pos hle] at h
    cases h
  · intro hlt
    exact ⟨_, if_neg hlt⟩

theorem intToValue_ne_error {α : Type} [WireInt α] [LawfulWireInt α] {x : α}
    (hmax : WireInt.greatest α ≤ WireInt.greatest Int64) : ¬ ∃ e, intToValue α x = .error e := by
  rw [intToValue_eq_error_iff, Int.not_lt]
  exact Int.le_trans (LawfulWireInt.toInt_le_greatest x) hmax

theorem uint64_eq_error_iff {x : UInt64} :
    (∃ e, intToValue UInt64 x = .error e) ↔ decide (2 ^ 63 - 1 < x.toNat) = true := by
  rw [intToValue_eq_error_iff, decide_eq_true_iff]
  show (9223372036854775807 : Int) < (x.toNat : Int) ↔ _
  omega

theorem scalar_of_intToValue {α : Type} [WireInt α] {x : α} {v : Value} (h : intToValue α x = .ok v) :
    v.WellNamed = true ∧ v.nesting ≤ 0 := by
  rw [intToValue_eq] at h
  split at h
  · cases h
    rw [Value.WellNamed, Value.nesting]
    exact ⟨rfl, Nat.le_refl 0⟩
  · cases h

/-! ## Booleans, strings and lists -/

theorem symbol_eq_ok_iff {b : Bool} {v : Value} :
    (.ok (.symbol (boolSymbol b)) : Except TypeError Value) = .ok v ↔ boolOfValue v = .ok b := by
  constructor
  · intro h
    cases h
    cases b <;> decide
  · intro h
    cases v with
    | symbol name =>
      rw [boolOfValue] at h
      split at h
      · rename_i htrue
        cases h
        rw [beq_iff_eq.1 htrue]
      · split at h
        · rename_i hfalse
          cases h
          rw [beq_iff_eq.1 hfalse]
        · cases h
    | integer | string | list | function => cases h

theorem string_eq_ok_iff {content : Bytes} {v : Value} :
    (.ok (.string content) : Except TypeError Value) = .ok v ↔ stringOfValue v = .ok content := by
  cases v with
  | string s => simp [stringOfValue, eq_comm]
  | integer | symbol | list | function => simp [stringOfValue]

section

variable {ε α β : Type} {f : α → Except ε β}

theorem mapM_cons_eq_ok_iff {x : α} {xs : List α} {ys : List β} :
    (x :: xs).mapM f = .ok ys ↔ ∃ y ys', f x = .ok y ∧ xs.mapM f = .ok ys' ∧ ys = y :: ys' := by
  rw [List.mapM_cons]
  cases hx : f x with
  | error e =>
    show Except.error e = .ok ys ↔ _
    simp
  | ok y =>
    show (xs.mapM f >>= fun ys' => pure (y :: ys')) = .ok ys ↔ _
    cases hxs : xs.mapM f with
    | error e =>
      show Except.error e = .ok ys ↔ _
      simp
    | ok ys' =>
      show Except.ok (y :: ys') = .ok ys ↔ _
      simp [eq_comm]

theorem mapM_eq_ok_iff {xs : List α} {ys : List β} :
    xs.mapM f = .ok ys ↔ List.Forall₂ (fun x y => f x = .ok y) xs ys := by
  induction xs generalizing ys with
  | nil =>
    rw [List.mapM_nil, List.forall₂_nil_left_iff]
    show Except.ok [] = .ok ys ↔ _
    simp [eq_comm]
  | cons x xs ih =>
    rw [mapM_cons_eq_ok_iff, List.forall₂_cons_left_iff]
    simp only [ih]

theorem mapM_eq_error_iff {xs : List α} : (∃ e, xs.mapM f = .error e) ↔ ∃ x ∈ xs, ∃ e, f x = .error e := by
  induction xs with
  | nil =>
    rw [List.mapM_nil]
    show (∃ e, Except.ok [] = .error e) ↔ _
    simp
  | cons x xs ih =>
    rw [List.mapM_cons, List.exists_mem_cons_iff, ← ih]
    cases hx : f x with
    | error e =>
      show (∃ e', Except.error e = .error e') ↔ _
      simp
    | ok y =>
      show (∃ e, (xs.mapM f >>= fun ys => pure (y :: ys)) = .error e) ↔ _
      cases hxs : xs.mapM f with
      | error e =>
        show (∃ e', Except.error e = .error e') ↔ _
        simp
      | ok ys =>
        show (∃ e, Except.ok (y :: ys) = .error e) ↔ _
        simp

end

/-- If items have values exactly if they are read off these, so do lists of items. -/
theorem list_eq_ok_iff {α : Type} {f : α → Except TypeError Value} {g : Value → Except TypeError α}
    (h : ∀ {x v}, f x = .ok v ↔ g v = .ok x) {xs : List α} {v : Value} :
    Value.list <$> xs.mapM f = .ok v ↔ (itemsOfValue v >>= fun vs => vs.mapM g) = .ok xs := by
  have hitems : ∀ vs, xs.mapM f = .ok vs ↔ vs.mapM g = .ok xs := by
    intro vs
    rw [mapM_eq_ok_iff, mapM_eq_ok_iff]
    constructor
    · intro hall
      exact (hall.imp fun x w hx => h.1 hx).flip
    · intro hall
      exact (hall.imp fun w x hw => h.2 hw).flip
  constructor
  · intro hv
    cases hxs : xs.mapM f with
    | error e =>
      rw [hxs] at hv
      cases hv
    | ok vs =>
      rw [hxs] at hv
      cases hv
      exact (hitems vs).1 hxs
  · intro hxs
    cases v with
    | list vs =>
      rw [(hitems vs).2 hxs]
      rfl
    | integer | string | symbol | function => cases hxs

theorem list_eq_error_iff {α : Type} {f : α → Except TypeError Value} {p : α → Bool}
    (h : ∀ {x}, (∃ e, f x = .error e) ↔ p x = true) {xs : List α} :
    (∃ e, Value.list <$> xs.mapM f = .error e) ↔ xs.any p = true := by
  have hmap : (∃ e, Value.list <$> xs.mapM f = .error e) ↔ ∃ e, xs.mapM f = .error e := by
    cases xs.mapM f with
    | error e => exact ⟨fun _ => ⟨e, rfl⟩, fun _ => ⟨e, rfl⟩⟩
    | ok vs => exact iff_of_false (fun ⟨_, he⟩ => nomatch he) (fun ⟨_, he⟩ => nomatch he)
  rw [hmap, mapM_eq_error_iff, List.any_eq_true]
  simp only [h]

theorem wellNamedAll_iff {vs : List Value} : Value.WellNamedAll vs = true ↔ ∀ v ∈ vs, v.WellNamed = true := by
  induction vs with
  | nil => simp [Value.WellNamedAll]
  | cons v vs ih => rw [Value.WellNamedAll, Bool.and_eq_true, ih, List.forall_mem_cons]

theorem wellFormed_list {α : Type} {f : α → Except TypeError Value} {n : Nat}
    (h : ∀ {x v}, f x = .ok v → v.WellNamed = true ∧ v.nesting ≤ n) {xs : List α} {v : Value}
    (hv : Value.list <$> xs.mapM f = .ok v) : v.WellNamed = true ∧ v.nesting ≤ n + 1 := by
  cases hxs : xs.mapM f with
  | error e =>
    rw [hxs] at hv
    cases hv
  | ok vs =>
    rw [hxs] at hv
    cases hv
    have hall : ∀ w ∈ vs, w.WellNamed = true ∧ w.nesting ≤ n := by
      have hitems := mapM_eq_ok_iff.1 hxs
      clear hxs
      induction hitems with
      | nil => simp
      | cons hx _ ih => exact List.forall_mem_cons.2 ⟨h hx, ih⟩
    rw [Value.WellNamed, Value.nesting, wellNamedAll_iff, Nat.add_le_add_iff_right, nestingAll_le_iff]
    exact ⟨fun w hw => (hall w hw).1, fun w hw => (hall w hw).2⟩

/-! ## Shapes -/

namespace Shape

def depth : Shape → Nat
  | list item => item.depth + 1
  | _ => 0

/-- The datum contains an unsigned integer beyond the signed ones. -/
def oversized : (s : Shape) → s.Carrier → Bool
  | uint64, x => decide (2 ^ 63 - 1 < UInt64.toNat x)
  | list item, xs => List.any xs item.oversized
  | int8, _ | int16, _ | int32, _ | int64, _ | uint8, _ | uint16, _ | uint32, _ | bool, _ | string, _ => false

/-- **A datum has a value if and only if it is read off that value.** -/
theorem toValue?_eq_ok_iff {s : Shape} {x : s.Carrier} {v : Value} : s.toValue? x = .ok v ↔ s.ofValue? v = .ok x := by
  induction s generalizing v with
  | int8 | int16 | int32 | int64 | uint8 | uint16 | uint32 | uint64 => exact intToValue_eq_ok_iff
  | bool => exact symbol_eq_ok_iff
  | string => exact string_eq_ok_iff
  | list item ih => exact list_eq_ok_iff ih

/-- **The data without a value are those with an unsigned integer beyond the signed ones.** -/
theorem toValue?_eq_error_iff {s : Shape} {x : s.Carrier} : (∃ e, s.toValue? x = .error e) ↔ s.oversized x = true := by
  induction s with
  | int8 | int16 | int32 | int64 | uint8 | uint16 | uint32 =>
    exact iff_of_false (intToValue_ne_error (by decide)) Bool.false_ne_true
  | uint64 => exact uint64_eq_error_iff
  | bool | string => exact iff_of_false (fun ⟨_, he⟩ => nomatch he) Bool.false_ne_true
  | list item ih => exact list_eq_error_iff ih

theorem wellFormed_of_toValue? {s : Shape} {x : s.Carrier} {v : Value} (h : s.toValue? x = .ok v) :
    v.WellNamed = true ∧ v.nesting ≤ s.depth := by
  induction s generalizing v with
  | int8 | int16 | int32 | int64 | uint8 | uint16 | uint32 | uint64 => exact scalar_of_intToValue h
  | bool =>
    cases h
    cases x <;> decide
  | string =>
    cases h
    exact ⟨rfl, Nat.zero_le _⟩
  | list item ih => exact wellFormed_list ih h

/-! ## Texts -/

/-- What is read from a text is what is read off its value. -/
theorem deserialize_eq_ok_iff {s : Shape} {text : Bytes} {x : s.Carrier} :
    s.deserialize text = .ok x ↔ ∃ v, parse text = .ok v ∧ s.ofValue? v = .ok x := by
  unfold deserialize
  cases parse text with
  | error e => simp
  | ok v =>
    dsimp only
    cases hx : s.ofValue? v with
    | error e => simp [hx]
    | ok y => simp [hx]

theorem deserialize_serialize {s : Shape} (hdepth : s.depth ≤ maxDepth) {x : s.Carrier} {v : Value}
    (h : s.toValue? x = .ok v) : s.serialize x = .ok v.render ∧ s.deserialize v.render = .ok x := by
  obtain ⟨hnames, hnesting⟩ := wellFormed_of_toValue? h
  constructor
  · rw [serialize, h]
    rfl
  · rw [deserialize_eq_ok_iff]
    exact ⟨v, parse_render hnames (hnesting.trans hdepth), toValue?_eq_ok_iff.1 h⟩

/-- **The typed codec is a partial bijection**, with the unsigned integers beyond the signed ones as the only data
that are not written. -/
theorem codec_partial_bijection (s : Shape) (hdepth : s.depth ≤ 512) :
    (∀ x : s.Carrier, (∃ e : TypeError, s.serialize x = .error e) ↔ s.oversized x = true) ∧
    (∀ x : s.Carrier, s.oversized x = false → ∃ text, s.serialize x = .ok text ∧ s.deserialize text = .ok x) ∧
    (∀ (text : Bytes) (x : s.Carrier), s.deserialize text = .ok x →
      (∃ v, parse text = .ok v ∧ s.toValue? x = .ok v) ∧
        ∃ text', s.serialize x = .ok text' ∧ s.deserialize text' = .ok x) ∧
    (∀ (text : Bytes) (v : Value), parse text = .ok v → (∀ x : s.Carrier, s.toValue? x ≠ .ok v) →
      ∃ e : TypeError, s.deserialize text = .error (.type e)) ∧
    ∀ (text : Bytes) (e : ParseError), parse text = .error e → s.deserialize text = .error (.parse e) := by
  refine ⟨fun x => ?_, fun x hx => ?_, fun text x h => ?_, fun text v hv hno => ?_, fun text e he => ?_⟩
  · rw [← toValue?_eq_error_iff, serialize]
    cases s.toValue? x with
    | error e => exact iff_of_true ⟨e, rfl⟩ ⟨e, rfl⟩
    | ok v => exact iff_of_false (fun ⟨_, he⟩ => nomatch he) (fun ⟨_, he⟩ => nomatch he)
  · cases hv : s.toValue? x with
    | error e =>
      rw [toValue?_eq_error_iff.1 ⟨e, hv⟩] at hx
      cases hx
    | ok v => exact ⟨v.render, deserialize_serialize hdepth hv⟩
  · obtain ⟨v, hparse, hv⟩ := deserialize_eq_ok_iff.1 h
    rw [← toValue?_eq_ok_iff] at hv
    exact ⟨⟨v, hparse, hv⟩, v.render, deserialize_serialize hdepth hv⟩
  · rw [deserialize, hv]
    cases hx : s.ofValue? v with
    | error e => exact ⟨e, by simp [hx]⟩
    | ok x => exact absurd (toValue?_eq_ok_iff.2 hx) (hno x)
  · rw [deserialize, he]

/-- A list of lists of unsigned integers up to the greatest signed one. -/
def writable : (list (list uint64)).Carrier :=
  ([[], [9223372036854775807, 7]] : List (List UInt64))

def unwritable : (list (list uint64)).Carrier :=
  ([[0], [9223372036854775808]] : List (List UInt64))

/-- The first is written and read back, the second is not written, and a negative integer is a type error. -/
theorem codec_partial_bijection_words :
    (list (list uint64)).depth ≤ 512 ∧
    (∃ text, (list (list uint64)).serialize writable = .ok text ∧
      (list (list uint64)).deserialize text = .ok writable) ∧
    (∃ e, (list (list uint64)).serialize unwritable = .error e) ∧
    ∃ e, (list (list uint64)).deserialize (Bytes.ofString "\x7b \x7b-1\x7d \x7d") = .error (.type e) := by
  have hdepth : (list (list uint64)).depth ≤ 512 := by decide
  obtain ⟨herror, hback, -, htype, -⟩ := codec_partial_bijection (list (list uint64)) hdepth
  have hparse : parse (Bytes.ofString "\x7b \x7b-1\x7d \x7d") = .ok (.list [.list [.integer (-1)]]) := by decide +kernel
  refine ⟨hdepth, hback writable (by decide), (herror unwritable).2 (by decide), htype _ _ hparse fun x hx => ?_⟩
  have hread := toValue?_eq_ok_iff.1 hx
  cases hread

end Shape

end StateSpace.Wire
