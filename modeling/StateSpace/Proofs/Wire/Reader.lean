import Mathlib.Algebra.Ring.Int.Defs
import Mathlib.Algebra.Ring.Nat
import Mathlib.Data.List.TakeWhile
import StateSpace.Proofs.Wire.Grammar

/-!
# What readers accept

* `Reader.Gives x r R` : with the bytes `r` left, `x` succeeds exactly with the results and the rests that `R` allows;
  `Gives.bind` : so does one reader after another;
* `peek_gives`, `expect_gives` : the next byte after blanks;
* `integer_gives`, `string_gives`, `identifier_gives` : the scalars, in terms of the grammar.
-/

namespace StateSpace.Wire

variable {p : UInt8 → Bool} {b : UInt8} {r r' ws : Bytes}

/-! ## Runs of bytes -/

/-- The bytes do not start with one of the class. -/
def Clear (p : UInt8 → Bool) (r : Bytes) : Prop := ∀ b ∈ r.head?, p b = false

theorem clear_nil : Clear p [] := fun _ h => nomatch h

theorem clear_cons : Clear p (b :: r) ↔ p b = false := by
  constructor
  · intro h
    exact h b rfl
  · rintro h _ ⟨⟩
    exact h

theorem clear_dropWhile : Clear p (r.dropWhile p) := by
  intro b hb
  have hnot := List.head?_dropWhile_not p r
  rw [Option.mem_def.1 hb] at hnot
  exact hnot

theorem dropWhile_of_clear (h : Clear p r) : r.dropWhile p = r := by
  cases r with
  | nil => rfl
  | cons b r => rw [List.dropWhile_cons_of_neg (by rw [clear_cons.1 h]; decide)]

theorem takeWhile_of_clear (h : Clear p r) : r.takeWhile p = [] := by
  cases r with
  | nil => rfl
  | cons b r => rw [List.takeWhile_cons_of_neg (by rw [clear_cons.1 h]; decide)]

theorem span_eq_iff {run : Bytes} : r.takeWhile p = run ∧ r.dropWhile p = r' ↔
    r = run ++ r' ∧ (∀ b ∈ run, p b = true) ∧ Clear p r' := by
  constructor
  · rintro ⟨rfl, rfl⟩
    exact ⟨List.takeWhile_append_dropWhile.symm, fun b hb => List.mem_takeWhile_imp hb, clear_dropWhile⟩
  · rintro ⟨rfl, hrun, hr'⟩
    rw [List.takeWhile_append_of_pos hrun, List.dropWhile_append_of_pos hrun, takeWhile_of_clear hr',
      dropWhile_of_clear hr', List.append_nil]
    exact ⟨rfl, rfl⟩

def trim (r : Bytes) : Bytes := r.dropWhile isBlank

theorem length_trim_le (r : Bytes) : (trim r).length ≤ r.length := (List.dropWhile_suffix isBlank).length_le

theorem trim_cons (hb : isBlank b = false) : trim (b :: r) = b :: r := dropWhile_of_clear (clear_cons.2 hb)

theorem trim_append (hw : Blank ws) : trim (ws ++ r) = trim r := List.dropWhile_append_of_pos hw

theorem trim_behind (hw : Blank ws) (hb : isBlank b = false) : trim (ws ++ b :: r) = b :: r := by
  rw [trim_append hw, trim_cons hb]

theorem trim_blank (hw : Blank ws) : trim ws = [] := by
  have htrim := trim_append (r := []) hw
  rwa [List.append_nil] at htrim

theorem trim_trim (r : Bytes) : trim (trim r) = trim r := dropWhile_of_clear clear_dropWhile

theorem exists_blank (r : Bytes) : ∃ ws, Blank ws ∧ r = ws ++ trim r :=
  ⟨r.takeWhile isBlank, fun _ hb => List.mem_takeWhile_imp hb, List.takeWhile_append_dropWhile.symm⟩

/-! ## Readers and relations -/

/-- The cursor with the given bytes left of a text of the given size, inside the given number of lists. -/
def Cursor.facing (size depth : Nat) (r : Bytes) : Cursor := ⟨size, r, size - r.length, depth⟩

theorem Cursor.start_eq (text : Bytes) : Cursor.start text = Cursor.facing text.length 0 text := by
  rw [facing, Nat.sub_self, start]

theorem Cursor.skip_facing {n d : Nat} (h : r.length ≤ n) :
    (facing n d r).skip p = facing n d (r.dropWhile p) := by
  have hlen : (r.takeWhile p).length + (r.dropWhile p).length = r.length := by
    rw [← List.length_append, List.takeWhile_append_dropWhile]
  have hpos : n - r.length + (r.takeWhile p).length = n - (r.dropWhile p).length := by omega
  rw [facing, skip, facing, hpos]

theorem Cursor.next_facing {n d : Nat} (h : (b :: r).length ≤ n) : (facing n d (b :: r)).next = facing n d r := by
  have hpos : n - (b :: r).length + 1 = n - r.length := by
    rw [List.length_cons] at h ⊢
    omega
  rw [facing, next, facing, hpos]
  rfl

namespace Reader

variable {α β : Type}

/-- With the bytes `r` left, `x` succeeds exactly with the results and rests that `R` allows. -/
structure Gives (x : Reader α) (r : Bytes) (R : α → Bytes → Prop) : Prop where
  length_le : ∀ {a r'}, R a r' → r'.length ≤ r.length
  run : ∀ {n d}, r.length ≤ n → ∀ a c, x (.facing n d r) = .ok a c ↔ ∃ r', R a r' ∧ c = .facing n d r'

variable {x y : Reader α} {f : α → Reader β} {R S : α → Bytes → Prop}

theorem Gives.congr (h : Gives x r R) (hiff : ∀ a r', R a r' ↔ S a r') : Gives x r S := by
  have hRS : R = S := funext fun a => funext fun r' => propext (hiff a r')
  exact hRS ▸ h

theorem bind_eq_ok {c c' : Cursor} {v : β} :
    (x >>= f) c = .ok v c' ↔ ∃ a c₁, x c = .ok a c₁ ∧ f a c₁ = .ok v c' := by
  show EStateM.bind x f c = _ ↔ _
  unfold EStateM.bind
  cases hx : x c with
  | ok a c₁ =>
    constructor
    · intro h
      exact ⟨a, c₁, rfl, h⟩
    · rintro ⟨_, _, ⟨⟩, h⟩
      exact h
  | error e c₁ =>
    constructor
    · intro h
      cases h
    · rintro ⟨_, _, ⟨⟩, _⟩

theorem Gives.bind {T : α → Bytes → β → Bytes → Prop} (hx : Gives x r R) (hf : ∀ a r', R a r' → Gives (f a) r' (T a r')) :
    Gives (x >>= f) r (fun v r'' => ∃ a r', R a r' ∧ T a r' v r'') := by
  constructor
  · rintro v r'' ⟨a, r', hR, hT⟩
    exact ((hf a r' hR).length_le hT).trans (hx.length_le hR)
  · intro n d hn v c
    rw [bind_eq_ok]
    constructor
    · rintro ⟨a, c₁, h₁, h₂⟩
      obtain ⟨r', hR, rfl⟩ := (hx.run hn a c₁).1 h₁
      obtain ⟨r'', hT, rfl⟩ := ((hf a r' hR).run ((hx.length_le hR).trans hn) v c).1 h₂
      exact ⟨r'', ⟨a, r', hR, hT⟩, rfl⟩
    · rintro ⟨r'', ⟨a, r', hR, hT⟩, rfl⟩
      refine ⟨a, .facing n d r', (hx.run hn _ _).2 ⟨r', hR, rfl⟩, ?_⟩
      exact ((hf a r' hR).run ((hx.length_le hR).trans hn) _ _).2 ⟨r'', hT, rfl⟩

/-- What succeeds in one way allows nothing else. -/
theorem Gives.only (a : α) (r' : Bytes) (hle : r'.length ≤ r.length)
    (h : ∀ n d, r.length ≤ n → x (.facing n d r) = .ok a (.facing n d r')) :
    Gives x r (fun v s => v = a ∧ s = r') := by
  constructor
  · rintro _ _ ⟨-, rfl⟩
    exact hle
  · intro n d hn v c
    rw [h n d hn]
    constructor
    · rintro ⟨⟩
      exact ⟨r', ⟨rfl, rfl⟩, rfl⟩
    · rintro ⟨_, ⟨rfl, rfl⟩, rfl⟩
      rfl

theorem Gives.pure (a : α) : Gives (pure a) r (fun v r' => v = a ∧ r' = r) :=
  .only a r le_rfl fun _ _ _ => rfl

/-- A reader that fails allows nothing. -/
theorem Gives.never (hx : ∀ c, ∃ e c', x c = .error e c') (hR : ∀ v r', ¬R v r') : Gives x r R := by
  constructor
  · intro v r' h
    exact absurd h (hR v r')
  · intro n d _ v c
    obtain ⟨e, c', hfail⟩ := hx (.facing n d r)
    rw [hfail]
    constructor
    · intro h
      cases h
    · rintro ⟨r', h, -⟩
      exact absurd h (hR v r')

theorem Gives.fail (fault : ParseFault) (hR : ∀ v r', ¬R v r') : Gives (fail fault) r R :=
  .never (fun _ => ⟨_, _, rfl⟩) hR

theorem Gives.failBehind (fault : ParseFault) (hR : ∀ v r', ¬R v r') : Gives (failBehind fault) r R :=
  .never (fun _ => ⟨_, _, rfl⟩) hR

/-- What succeeds in one way is followed by what reads on from there. -/
theorem Gives.after {a : α} {T : β → Bytes → Prop} (hx : Gives x r (fun v s => v = a ∧ s = r')) (hf : Gives (f a) r' T) :
    Gives (x >>= f) r T := by
  have hbind : Gives (x >>= f) r (fun v s => ∃ a' s', (a' = a ∧ s' = r') ∧ T v s) := by
    refine hx.bind ?_
    rintro _ _ ⟨rfl, rfl⟩
    exact hf
  refine hbind.congr fun v s => ?_
  constructor
  · rintro ⟨_, _, _, hT⟩
    exact hT
  · intro hT
    exact ⟨a, r', ⟨rfl, rfl⟩, hT⟩

/-! ## Single bytes -/

theorem blanks_gives : Gives blanks r (fun v r' => v = () ∧ r' = trim r) := by
  refine .only () (trim r) (length_trim_le r) fun n d hn => ?_
  rw [trim, ← Cursor.skip_facing hn]
  rfl

theorem advance_gives : Gives advance (b :: r) (fun v r' => v = () ∧ r' = r) := by
  refine .only () r (Nat.le_succ _) fun n d hn => ?_
  rw [← Cursor.next_facing hn]
  rfl

theorem nextIs_gives : Gives (nextIs b) r (fun v r' => v = (r.head? == some b) ∧ r' = r) :=
  .only _ r le_rfl fun _ _ _ => rfl

theorem Gives.get_bind {f : Cursor → Reader β} {T : β → Bytes → Prop} (h : ∀ n d, Gives (f (.facing n d r)) r T) :
    Gives (get >>= f) r T :=
  ⟨(h 0 0).length_le, fun hn v c => (h _ _).run hn v c⟩

/-- Looking at the next byte: there is one, and the blanks in front of it are gone. -/
theorem peek_gives : Gives peek r (fun v r' => trim r = r' ∧ r'.head? = some v) := by
  refine blanks_gives.after (Gives.get_bind fun n d => ?_)
  cases trim r with
  | nil =>
    show Gives (fail .unexpectedEnd) [] _
    refine .fail _ fun v r' => ?_
    rintro ⟨rfl, h⟩
    cases h
  | cons b u =>
    show Gives (Pure.pure b) (b :: u) _
    refine (Gives.pure b).congr fun v r' => ?_
    constructor
    · rintro ⟨rfl, rfl⟩
      exact ⟨rfl, rfl⟩
    · rintro ⟨rfl, hv⟩
      exact ⟨(Option.some.inj hv).symm, rfl⟩

theorem Gives.peek_bind {f : UInt8 → Reader β} {T : β → Bytes → Prop} (hnil : trim r = [] → ∀ v r', ¬T v r')
    (hcons : ∀ b u, trim r = b :: u → Gives (f b) (b :: u) T) : Gives (peek >>= f) r T := by
  cases htrim : trim r with
  | nil =>
    refine (peek_gives.bind (T := fun _ _ _ _ => False) ?_).congr ?_
    · rintro v _ ⟨rfl, h⟩
      rw [htrim] at h
      cases h
    · intro v r'
      exact ⟨fun ⟨_, _, _, h⟩ => h.elim, fun h => (hnil htrim v r' h).elim⟩
  | cons b u =>
    refine (peek_gives.congr fun v r' => ?_).after (hcons b u htrim)
    constructor
    · rintro ⟨rfl, h⟩
      rw [htrim] at h
      exact ⟨(Option.some.inj h).symm, htrim⟩
    · rintro ⟨rfl, rfl⟩
      exact ⟨htrim, rfl⟩

theorem expect_gives : Gives (expect b) r (fun _ r' => trim r = b :: r') := by
  refine Gives.peek_bind ?_ ?_
  · intro hnil v r' h
    rw [hnil] at h
    cases h
  · intro b' u htrim
    rw [htrim]
    by_cases hb : b' = b
    · subst hb
      rw [if_pos (beq_self_eq_true b')]
      refine advance_gives.congr fun v r' => ?_
      constructor
      · rintro ⟨-, rfl⟩
        rfl
      · intro h
        exact ⟨rfl, (List.cons.inj h).2.symm⟩
    · rw [if_neg (by rw [beq_iff_eq]; exact hb)]
      exact .fail _ fun v r' h => hb (List.cons.inj h).1

/-! ## Integers -/

theorem toInt_digit {b : UInt8} (h : isDigit b = true) :
    (b - '0'.toUInt8).toUInt64.toInt64.toInt = (b.toNat - 48 : Nat) := by
  obtain ⟨hlo, hhi⟩ := isDigit_iff.1 h
  have hle : '0'.toUInt8 ≤ b := UInt8.le_iff_toNat_le.2 hlo
  have hsub : (b - '0'.toUInt8).toUInt64.toNat = b.toNat - 48 := by
    rw [UInt8.toNat_toUInt64, UInt8.toNat_sub_of_le _ _ hle]
    rfl
  show (b - '0'.toUInt8).toUInt64.toBitVec.toInt = _
  rw [BitVec.toInt_eq_toNat_bmod, UInt64.toNat_toBitVec, hsub]
  exact Int.bmod_eq_of_le (by omega) (by omega)

theorem le_numeral (m : Nat) (ds : Bytes) : m ≤ numeral m ds := by
  induction ds generalizing m with
  | nil => exact Nat.le_refl m
  | cons b ds ih =>
    have hstep := ih (10 * m + (b.toNat - 48))
    show m ≤ numeral (10 * m + (b.toNat - 48)) ds
    omega

/-- The guard of a step keeps exactly the digits that would pass the least integer from being taken. -/
theorem lt_quotient_iff {value g : Int64} {m k : Nat} (hm : value.toInt = -m) (hg : g.toInt = k) (hk : k ≤ 9) :
    value < (Int64.minValue + g) / 10 ↔ 2 ^ 63 < 10 * m + k := by
  have hsum : (Int64.minValue + g).toInt = -((2 ^ 63 - k : Nat) : Int) := by
    rw [Int64.toInt_add, hg, Int64.toInt_minValue, Int.bmod_eq_of_le] <;> omega
  have hquot : ((Int64.minValue + g) / 10).toInt = -(((2 ^ 63 - k) / 10 : Nat) : Int) := by
    have hten : (10 : Int64).toInt = (10 : Nat) := rfl
    rw [Int64.toInt_div, hsum, hten, Int.neg_tdiv, ← Int.ofNat_tdiv, Int.bmod_eq_of_le] <;> omega
  rw [Int64.lt_iff_toInt_lt, hquot, hm]
  omega

theorem toInt_step {value g : Int64} {m k : Nat} (hm : value.toInt = -m) (hg : g.toInt = k) (hk : 10 * m + k ≤ 2 ^ 63) :
    (value * 10 - g).toInt = -((10 * m + k : Nat) : Int) := by
  have hten : (10 : Int64).toInt = 10 := rfl
  have hmul : (value * 10).toInt = -((10 * m : Nat) : Int) := by
    rw [Int64.toInt_mul, hm, hten, Int.bmod_eq_of_le] <;> omega
  rw [Int64.toInt_sub, hmul, hg, Int.bmod_eq_of_le] <;> omega

theorem countDown_eq_ok {ds : Bytes} (hd : ∀ b ∈ ds, isDigit b = true) {value v : Int64} {m : Nat}
    (hm : value.toInt = -m) : countDown value ds = .ok v ↔ v.toInt = -numeral m ds := by
  induction ds generalizing value m with
  | nil =>
    show Except.ok value = .ok v ↔ v.toInt = -m
    rw [← hm, Except.ok.injEq, eq_comm, ← Int64.toInt_inj]
  | cons b ds ih =>
    have hb := hd b List.mem_cons_self
    obtain ⟨hlo, hhi⟩ := isDigit_iff.1 hb
    have hg := toInt_digit hb
    rw [countDown]
    show _ ↔ v.toInt = -numeral (10 * m + (b.toNat - 48)) ds
    by_cases hover : 2 ^ 63 < 10 * m + (b.toNat - 48)
    · rw [if_pos ((lt_quotient_iff hm hg (by omega)).2 hover)]
      have hle := le_numeral (10 * m + (b.toNat - 48)) ds
      have hmin := Int64.le_toInt v
      constructor
      · intro h
        cases h
      · intro h
        omega
    · rw [if_neg (fun h => hover ((lt_quotient_iff hm hg (by omega)).1 h))]
      exact ih (fun b' hb' => hd b' (List.mem_cons_of_mem _ hb')) (toInt_step hm hg (by omega))

theorem toInt_neg_of_lt {v : Int64} (h : -2 ^ 63 < v.toInt) : (-v).toInt = -v.toInt := by
  have hlt := Int64.toInt_lt v
  rw [Int64.toInt_neg, Int.bmod_eq_of_le] <;> omega

/-- The number with the digits' magnitude and the given sign, if the words have it, is what counting down leads to. -/
theorem countDown_signed {ds : Bytes} (hd : ∀ b ∈ ds, isDigit b = true) (negative : Bool) (v : Int64) :
    (∃ value, countDown 0 ds = .ok value ∧ if negative then v = value else value ≠ Int64.minValue ∧ v = -value) ↔
      v.toInt = if negative then -(numeral 0 ds : Int) else numeral 0 ds := by
  have hcount := fun value => countDown_eq_ok (v := value) hd (show (0 : Int64).toInt = -(0 : Nat) from rfl)
  cases negative with
  | true =>
    simp only [if_true]
    constructor
    · rintro ⟨value, hv, rfl⟩
      exact (hcount v).1 hv
    · intro hv
      exact ⟨v, (hcount v).2 hv, rfl⟩
  | false =>
    simp only [Bool.false_eq_true, if_false]
    constructor
    · rintro ⟨value, hv, hmin, rfl⟩
      have hvalue := (hcount value).1 hv
      have hle := Int64.le_toInt value
      have hne : value.toInt ≠ -2 ^ 63 := fun h => hmin (Int64.toInt_inj.1 h)
      rw [toInt_neg_of_lt (by omega), hvalue, Int.neg_neg]
    · intro hv
      have hneg : (-v).toInt = -v.toInt := toInt_neg_of_lt (by omega)
      have hlt := Int64.toInt_lt v
      refine ⟨-v, (hcount (-v)).2 (by rw [hneg, hv]), fun hmin => ?_, (Int64.neg_neg).symm⟩
      rw [hmin, Int64.toInt_minValue] at hneg
      omega

/-- The digits of an integer, with the sign read before them. -/
def magnitude (start : Nat) (negative : Bool) : Reader Int64 := do
  let c ← get
  let digits := c.rest.takeWhile isDigit
  if digits.isEmpty then fail .expectedDigits
  else
    match countDown 0 digits with
    | .error untaken =>
      set { c with rest := untaken ++ c.rest.dropWhile isDigit, pos := c.pos + (digits.length - untaken.length) }
      throw ⟨.integerTooLarge, start⟩
    | .ok value =>
      set (c.skip isDigit)
      if negative then return value
      else if value == Int64.minValue then throw ⟨.integerTooLarge, start⟩
      else return -value

theorem integer_eq : integer = (do
    blanks
    let c ← get
    let negative ← nextIs '-'.toUInt8
    if negative then advance
    magnitude c.pos negative) := rfl

theorem magnitude_run {start n d : Nat} {negative : Bool} {v : Int64} {c : Cursor} (hn : r.length ≤ n) :
    magnitude start negative (.facing n d r) = .ok v c ↔
      (r.takeWhile isDigit ≠ [] ∧ ∃ value, countDown 0 (r.takeWhile isDigit) = .ok value ∧
        if negative then v = value else value ≠ Int64.minValue ∧ v = -value) ∧
      c = .facing n d (r.dropWhile isDigit) := by
  unfold magnitude
  show (ite ((r.takeWhile isDigit).isEmpty = true) _ _ : Reader Int64) _ = _ ↔ _
  by_cases hne : r.takeWhile isDigit = []
  · rw [if_pos (List.isEmpty_iff.2 hne)]
    constructor
    · intro h
      cases h
    · rintro ⟨⟨h, -⟩, -⟩
      exact absurd hne h
  rw [if_neg (fun h => hne (List.isEmpty_iff.1 h))]
  show (match countDown 0 (r.takeWhile isDigit) with | .error _ => _ | .ok _ => _ : Reader Int64) _ = _ ↔ _
  cases hcount : countDown 0 (r.takeWhile isDigit) with
  | error untaken =>
    constructor
    · intro h
      cases h
    · rintro ⟨⟨-, value, ⟨⟩, -⟩, -⟩
  | ok value =>
    show (ite (negative = true) (pure value) (ite ((value == Int64.minValue) = true) (throw _) (pure (-value))) :
      Reader Int64) ((Cursor.facing n d r).skip isDigit) = _ ↔ _
    rw [Cursor.skip_facing hn]
    cases negative with
    | true =>
      constructor
      · rintro ⟨⟩
        exact ⟨⟨hne, _, rfl, rfl⟩, rfl⟩
      · rintro ⟨⟨-, _, ⟨⟩, hv⟩, rfl⟩
        cases hv
        rfl
    | false =>
      by_cases hmin : value = Int64.minValue
      · rw [if_neg Bool.false_ne_true, if_pos (beq_iff_eq.2 hmin)]
        constructor
        · intro h
          cases h
        · rintro ⟨⟨-, _, ⟨⟩, hv⟩, -⟩
          exact absurd hmin hv.1
      · rw [if_neg Bool.false_ne_true, if_neg (fun h => hmin (beq_iff_eq.1 h))]
        constructor
        · rintro ⟨⟩
          exact ⟨⟨hne, _, rfl, hmin, rfl⟩, rfl⟩
        · rintro ⟨⟨-, _, ⟨⟩, hv⟩, rfl⟩
          rw [hv.2]
          rfl

theorem magnitude_gives (start : Nat) (negative : Bool) : Gives (magnitude start negative) r (fun v r' =>
    ∃ ds, r = ds ++ r' ∧ ds ≠ [] ∧ (∀ b ∈ ds, isDigit b = true) ∧ Clear isDigit r' ∧
      v.toInt = if negative then -(numeral 0 ds : Int) else numeral 0 ds) := by
  constructor
  · rintro v r' ⟨ds, rfl, -⟩
    rw [List.length_append]
    exact Nat.le_add_left _ _
  · intro n d hn v c
    rw [magnitude_run hn]
    constructor
    · rintro ⟨⟨hne, hv⟩, rfl⟩
      have hspan : r = r.takeWhile isDigit ++ r.dropWhile isDigit ∧ _ ∧ _ := span_eq_iff.1 ⟨rfl, rfl⟩
      exact ⟨_, ⟨_, hspan.1, hne, hspan.2.1, hspan.2.2, (countDown_signed hspan.2.1 negative v).1 hv⟩, rfl⟩
    · rintro ⟨r', ⟨ds, hr, hne, hd, hclear, hv⟩, rfl⟩
      obtain ⟨rfl, rfl⟩ := span_eq_iff.2 ⟨hr, hd, hclear⟩
      exact ⟨⟨hne, (countDown_signed hd negative v).2 hv⟩, rfl⟩

theorem integer_gives : Gives integer r (fun v r' => ∃ t, trim r = t ++ r' ∧ IsNumeral t v ∧ Clear isDigit r') := by
  rw [integer_eq]
  refine blanks_gives.after (Gives.get_bind fun n d => nextIs_gives.after ?_)
  by_cases hminus : (trim r).head? = some '-'.toUInt8
  · obtain ⟨u, hu⟩ := List.head?_eq_some_iff.1 hminus
    rw [hu]
    refine (advance_gives.after (magnitude_gives _ true)).congr fun v r' => ?_
    constructor
    · rintro ⟨ds, rfl, hne, hd, hclear, hv⟩
      exact ⟨'-'.toUInt8 :: ds, rfl, .minus hne hd hv, hclear⟩
    · rintro ⟨t, ht, hnum, hclear⟩
      cases hnum with
      | plain hne hd hv =>
        obtain ⟨b, ds, rfl⟩ := List.exists_cons_of_ne_nil hne
        cases (List.cons.inj ht).1
        exact absurd (hd _ List.mem_cons_self) (by decide)
      | minus hne hd hv => exact ⟨_, (List.cons.inj ht).2, hne, hd, hclear, hv⟩
  · rw [beq_eq_false_iff_ne.2 hminus]
    refine (magnitude_gives _ false).congr fun v r' => ?_
    constructor
    · rintro ⟨ds, hr, hne, hd, hclear, hv⟩
      exact ⟨ds, hr, .plain hne hd hv, hclear⟩
    · rintro ⟨t, ht, hnum, hclear⟩
      cases hnum with
      | plain hne hd hv => exact ⟨t, ht, hne, hd, hclear, hv⟩
      | minus hne hd hv =>
        rw [ht] at hminus
        exact absurd rfl hminus

/-! ## Strings and names -/

theorem stringBody_eq_ok {c c' : Cursor} {pos : Nat} {content s : Bytes} : stringBody c pos content r = .ok s c' ↔
    ∃ body s' r', r = body ++ '"'.toUInt8 :: r' ∧ IsBody body s' ∧ s = content.reverse ++ s' ∧
      c' = { c with rest := r', pos := pos + (body.length + 1) } := by
  fun_induction stringBody c pos content r with
  | case1 pos content =>
    constructor
    · intro h
      cases h
    · rintro ⟨body, s', r', h, -⟩
      cases body <;> cases h
  | case2 pos content b rest hb =>
    rw [beq_iff_eq] at hb
    constructor
    · rintro ⟨⟩
      exact ⟨[], [], _, by rw [hb]; rfl, .nil, (List.append_nil _).symm, rfl⟩
    · rintro ⟨body, s', r', h, hbody, rfl, rfl⟩
      cases hbody with
      | nil =>
        cases h
        rw [List.append_nil]
        rfl
      | plain hq _ _ => exact absurd ((List.cons.inj h).1.symm.trans hb) hq
      | escaped _ _ => exact absurd ((List.cons.inj h).1.symm.trans hb) (by decide)
  | case3 pos content b hq hb =>
    rw [beq_iff_eq] at hq hb
    constructor
    · intro h
      cases h
    · rintro ⟨body, s', r', h, hbody, -, -⟩
      cases hbody with
      | nil => exact absurd (List.cons.inj h).1 hq
      | plain _ hb' _ => exact absurd ((List.cons.inj h).1.symm.trans hb) hb'
      | escaped _ _ => cases h
  | case4 pos content b hq hb e rest x he ih =>
    rw [beq_iff_eq] at hq hb
    subst hb
    have hlen (body : Bytes) : pos + 2 + (body.length + 1) = pos + (('\\'.toUInt8 :: e :: body).length + 1) := by
      simp only [List.length_cons]
      omega
    rw [ih]
    constructor
    · rintro ⟨body, s', r', rfl, hbody, rfl, rfl⟩
      exact ⟨'\\'.toUInt8 :: e :: body, x :: s', r', rfl, .escaped he hbody, by simp, by rw [hlen]⟩
    · rintro ⟨body, s', r', h, hbody, rfl, rfl⟩
      cases hbody with
      | nil => exact absurd (List.cons.inj h).1 hq
      | plain _ hb' _ => exact absurd (List.cons.inj h).1.symm hb'
      | escaped he' hbody =>
        cases h
        cases he.symm.trans he'
        exact ⟨_, _, r', rfl, hbody, by simp, by rw [hlen]⟩
  | case5 pos content b hq hb e rest he =>
    rw [beq_iff_eq] at hq hb
    subst hb
    constructor
    · intro h
      cases h
    · rintro ⟨body, s', r', h, hbody, -, -⟩
      cases hbody with
      | nil => exact absurd (List.cons.inj h).1 hq
      | plain _ hb' _ => exact absurd (List.cons.inj h).1.symm hb'
      | escaped he' hbody =>
        cases h
        cases he.symm.trans he'
  | case6 pos content b rest hq hb ih =>
    rw [beq_iff_eq] at hq hb
    have hlen (body : Bytes) : pos + 1 + (body.length + 1) = pos + ((b :: body).length + 1) := by
      simp only [List.length_cons]
      omega
    rw [ih]
    constructor
    · rintro ⟨body, s', r', rfl, hbody, rfl, rfl⟩
      exact ⟨b :: body, b :: s', r', rfl, .plain hq hb hbody, by simp, by rw [hlen]⟩
    · rintro ⟨body, s', r', h, hbody, rfl, rfl⟩
      cases hbody with
      | nil => exact absurd (List.cons.inj h).1 hq
      | plain _ _ hbody =>
        cases h
        exact ⟨_, _, r', rfl, hbody, by simp, by rw [hlen]⟩
      | escaped _ _ => exact absurd (List.cons.inj h).1 hb

theorem facing_behind {n d : Nat} {body : Bytes} (h : (body ++ b :: r').length ≤ n) :
    { Cursor.facing n d (body ++ b :: r') with rest := r', pos := n - (body ++ b :: r').length + (body.length + 1) } =
      Cursor.facing n d r' := by
  have hpos : n - (body ++ b :: r').length + (body.length + 1) = n - r'.length := by
    simp only [List.length_append, List.length_cons] at h ⊢
    omega
  rw [hpos]
  rfl

theorem string_gives : Gives string r (fun s r' =>
    ∃ body, trim r = '"'.toUInt8 :: (body ++ '"'.toUInt8 :: r') ∧ IsBody body s) := by
  refine (expect_gives.bind (T := fun _ u s r' => ∃ body, u = body ++ '"'.toUInt8 :: r' ∧ IsBody body s) ?_).congr ?_
  · intro _ u _
    constructor
    · rintro s r' ⟨body, rfl, -⟩
      simp only [List.length_append, List.length_cons]
      omega
    · intro n d hn s c
      show stringBody (.facing n d u) (n - u.length) [] u = _ ↔ _
      rw [stringBody_eq_ok]
      constructor
      · rintro ⟨body, s', r', rfl, hbody, rfl, rfl⟩
        exact ⟨r', ⟨body, rfl, hbody⟩, facing_behind hn⟩
      · rintro ⟨r', ⟨body, rfl, hbody⟩, rfl⟩
        exact ⟨body, s, r', rfl, hbody, rfl, (facing_behind hn).symm⟩
  · intro s r'
    constructor
    · rintro ⟨_, u, htrim, body, rfl, hbody⟩
      exact ⟨body, htrim, hbody⟩
    · rintro ⟨body, htrim, hbody⟩
      exact ⟨(), _, htrim, body, rfl, hbody⟩

theorem identifier_gives : Gives identifier r (fun name r' =>
    trim r = name ++ r' ∧ name ≠ [] ∧ (∀ b ∈ name, isNameByte b = true) ∧ Clear isNameByte r') := by
  refine blanks_gives.after (Gives.get_bind fun n d => ?_)
  show Gives (ite (((trim r).takeWhile isNameByte).isEmpty = true) _ _) _ _
  by_cases hne : (trim r).takeWhile isNameByte = []
  · rw [if_pos (List.isEmpty_iff.2 hne)]
    refine .fail _ fun name r' => ?_
    rintro ⟨hr, hname, hb, hclear⟩
    exact hname ((span_eq_iff.2 ⟨hr, hb, hclear⟩).1.symm.trans hne)
  · rw [if_neg (fun h => hne (List.isEmpty_iff.1 h))]
    refine (Gives.only ((trim r).takeWhile isNameByte) ((trim r).dropWhile isNameByte) ?_ fun n d hn => ?_).congr
      fun name r' => ?_
    · exact (List.dropWhile_suffix isNameByte).length_le
    · rw [← Cursor.skip_facing hn]
      rfl
    · constructor
      · rintro ⟨hname, hr'⟩
        obtain ⟨hr, hb, hclear⟩ := span_eq_iff.1 ⟨hname.symm, hr'.symm⟩
        exact ⟨hr, hname ▸ hne, hb, hclear⟩
      · rintro ⟨hr, -, hb, hclear⟩
        obtain ⟨hname, hr'⟩ := span_eq_iff.2 ⟨hr, hb, hclear⟩
        exact ⟨hname.symm, hr'.symm⟩

end Reader

end StateSpace.Wire
