import StateSpace.Proofs.Wire.Reader

/-!
# What texts are read as

* `Opens`, `Leaves` : the bytes that values start with, and how far a reader goes behind them;
* `items_gives`, `sequenceOf_gives`, `valueWithin_gives` : sequences and values, in terms of the grammar;
* `parse_eq_ok_iff` : a text is read as a value exactly if it denotes the value and the value does not nest too deep.
-/

namespace StateSpace.Wire

variable {b : UInt8} {r r' t u ws : Bytes} {v : Value} {vs : List Value}

/-! ## Where values start and end -/

def Opens : Value → UInt8 → Prop
  | .integer _, b => b = '-'.toUInt8 ∨ isDigit b = true
  | .string _, b => b = '"'.toUInt8
  | .list _, b => b = '\x7b'.toUInt8
  | .symbol _, b | .function _ _, b => isNameStart b = true

theorem isIdentifier_iff {name : Bytes} : IsIdentifier name = true ↔
    (∃ b u, name = b :: u ∧ isNameStart b = true) ∧ ∀ b ∈ name, isNameByte b = true := by
  cases name with
  | nil => simp [IsIdentifier]
  | cons b u =>
    simp only [IsIdentifier, Bool.and_eq_true, List.all_eq_true, List.forall_mem_cons]
    constructor
    · rintro ⟨hb, hu⟩
      exact ⟨⟨b, u, rfl, hb⟩, isNameByte_of_isNameStart hb, hu⟩
    · rintro ⟨⟨_, _, ⟨⟩, hb⟩, -, hu⟩
      exact ⟨hb, hu⟩

theorem Denotes.opens (h : Denotes t v) : ∃ b u, t = b :: u ∧ Opens v b := by
  cases h with
  | integer h =>
    cases h with
    | plain hne hd _ =>
      obtain ⟨b, ds, rfl⟩ := List.exists_cons_of_ne_nil hne
      exact ⟨b, ds, rfl, .inr (hd b List.mem_cons_self)⟩
    | minus _ _ _ => exact ⟨_, _, rfl, .inl rfl⟩
  | string _ => exact ⟨_, _, rfl, rfl⟩
  | symbol h =>
    obtain ⟨⟨b, u, rfl, hb⟩, -⟩ := isIdentifier_iff.1 h
    exact ⟨b, u, rfl, hb⟩
  | list _ => exact ⟨_, _, rfl, rfl⟩
  | function h _ _ =>
    obtain ⟨⟨b, u, rfl, hb⟩, -⟩ := isIdentifier_iff.1 h
    exact ⟨b, _, rfl, hb⟩

theorem isBlank_iff : isBlank b = true ↔ b.toNat = 32 ∨ 9 ≤ b.toNat ∧ b.toNat ≤ 13 := by
  simp [isBlank, UInt8.le_iff_toNat_le, ← UInt8.toNat_inj]

theorem isNameStart_iff : isNameStart b = true ↔
    (65 ≤ b.toNat ∧ b.toNat ≤ 90) ∨ (97 ≤ b.toNat ∧ b.toNat ≤ 122) ∨ b.toNat = 36 := by
  have hdollar : '$'.toUInt8.toNat = 36 := rfl
  simp [isNameStart, isLetter, UInt8.le_iff_toNat_le, ← UInt8.toNat_inj, hdollar, or_assoc]

theorem isNameByte_iff : isNameByte b = true ↔ isNameStart b = true ∨ isDigit b = true := by
  simp only [isNameByte, isNameStart, Bool.or_eq_true]
  exact or_right_comm

theorem Opens.toNat (h : Opens v b) : 33 ≤ b.toNat ∧ b.toNat ≠ 93 ∧ b.toNat ≠ 125 := by
  cases v with
  | integer n =>
    rcases h with rfl | h
    · decide
    · rw [isDigit_iff] at h
      omega
  | string s =>
    cases h
    decide
  | list vs =>
    cases h
    decide
  | symbol name =>
    have hb := isNameStart_iff.1 h
    omega
  | function head vs =>
    have hb := isNameStart_iff.1 h
    omega

theorem Opens.not_blank (h : Opens v b) : isBlank b = false := by
  have hrange := h.toNat
  rw [Bool.eq_false_iff, ne_eq, isBlank_iff]
  omega

theorem Opens.integer (h : Opens v b) (hb : b = '-'.toUInt8 ∨ isDigit b = true) : ∃ n, v = .integer n := by
  have hrange : b.toNat = 45 ∨ 48 ≤ b.toNat ∧ b.toNat ≤ 57 := hb.imp (fun h => by rw [h]; rfl) isDigit_iff.1
  cases v with
  | integer n => exact ⟨n, rfl⟩
  | string s =>
    cases h
    exact absurd hrange (by decide)
  | list vs =>
    cases h
    exact absurd hrange (by decide)
  | symbol name =>
    have hstart := isNameStart_iff.1 h
    omega
  | function head vs =>
    have hstart := isNameStart_iff.1 h
    omega

theorem Opens.string (h : Opens v '"'.toUInt8) : ∃ s, v = .string s := by
  cases v with
  | string s => exact ⟨s, rfl⟩
  | integer n => exact absurd h (by rw [Opens]; decide)
  | list vs => exact absurd h (by rw [Opens]; decide)
  | symbol name => exact absurd h (by rw [Opens]; decide)
  | function head vs => exact absurd h (by rw [Opens]; decide)

theorem Opens.list (h : Opens v '\x7b'.toUInt8) : ∃ vs, v = .list vs := by
  cases v with
  | list vs => exact ⟨vs, rfl⟩
  | integer n => exact absurd h (by rw [Opens]; decide)
  | string s => exact absurd h (by rw [Opens]; decide)
  | symbol name => exact absurd h (by rw [Opens]; decide)
  | function head vs => exact absurd h (by rw [Opens]; decide)

theorem Opens.named (h : Opens v b) (hb : isNameStart b = true) :
    (∃ name, v = .symbol name) ∨ ∃ head vs, v = .function head vs := by
  cases v with
  | symbol name => exact .inl ⟨name, rfl⟩
  | function head vs => exact .inr ⟨head, vs, rfl⟩
  | integer n =>
    have hstart := isNameStart_iff.1 hb
    rcases h with rfl | h
    · exact absurd hb (by decide)
    · rw [isDigit_iff] at h
      omega
  | string s =>
    cases h
    exact absurd hb (by decide)
  | list vs =>
    cases h
    exact absurd hb (by decide)

def Closes (b : UInt8) : Prop := b = '\x7d'.toUInt8 ∨ b = ']'.toUInt8

theorem Closes.not_blank (h : Closes b) : isBlank b = false := by
  rcases h with rfl | rfl <;> decide

theorem Opens.not_closes (h : Opens v b) : ¬Closes b := by
  have hrange := h.toNat
  rintro (rfl | rfl)
  · exact hrange.2.2 rfl
  · exact hrange.2.1 rfl

theorem Denotes.trim_append (h : Denotes t v) : trim (t ++ r) = t ++ r := by
  obtain ⟨b, u, rfl, hb⟩ := h.opens
  exact trim_cons hb.not_blank

/-- How far a reader goes behind the text of a value: it takes digits and name bytes as long as they come, and behind a name it
looks for an opening bracket. -/
def Leaves : Value → Bytes → Bytes → Prop
  | .integer _, r, r' => Clear isDigit r ∧ r' = r
  | .symbol _, r, r' => Clear isNameByte r ∧ (trim r).head? ≠ some '['.toUInt8 ∧ r' = trim r
  | _, r, r' => r' = r

theorem Leaves.trim_eq (h : Leaves v r r') : trim r' = trim r := by
  cases v with
  | integer n => rw [h.2]
  | symbol name => rw [h.2.2, trim_trim]
  | string s => rw [show r' = r from h]
  | list vs => rw [show r' = r from h]
  | function head vs => rw [show r' = r from h]

/-- Behind blanks, the text ends or an item does. -/
def Ends (r : Bytes) : Prop := ∀ b ∈ (trim r).head?, b = ','.toUInt8 ∨ Closes b

theorem Ends.clear {p : UInt8 → Bool} (h : Ends r) (hblank : ∀ b, isBlank b = true → p b = false)
    (hend : ∀ b, b = ','.toUInt8 ∨ Closes b → p b = false) : Clear p r := by
  cases r with
  | nil => exact clear_nil
  | cons b r =>
    rw [clear_cons]
    cases hb : isBlank b with
    | true => exact hblank b hb
    | false =>
      have hhead : b ∈ (trim (b :: r)).head? := by rw [trim_cons hb]; rfl
      exact hend b (h b hhead)

theorem ends_of_trim (h : trim r = b :: r') (hb : b = ','.toUInt8 ∨ Closes b) : Ends r := by
  intro b' hb'
  rw [h] at hb'
  cases hb'
  exact hb

theorem Ends.leaves (h : Ends r) (v : Value) : ∃ r', Leaves v r r' := by
  cases v with
  | integer n =>
    refine ⟨r, h.clear (fun b hb => ?_) ?_, rfl⟩
    · rw [isBlank_iff] at hb
      rw [Bool.eq_false_iff, ne_eq, isDigit_iff]
      omega
    · rintro b (rfl | rfl | rfl) <;> decide
  | symbol name =>
    refine ⟨trim r, h.clear (fun b hb => ?_) ?_, fun hb => ?_, rfl⟩
    · rw [isBlank_iff] at hb
      rw [Bool.eq_false_iff, ne_eq, isNameByte_iff, isNameStart_iff, isDigit_iff]
      omega
    · rintro b (rfl | rfl | rfl) <;> decide
    · exact absurd (h _ hb) (by unfold Closes; decide)
  | string s => exact ⟨r, rfl⟩
  | list vs => exact ⟨r, rfl⟩
  | function head vs => exact ⟨r, rfl⟩

/-! ## Sequences -/

theorem Blank.append {ws' : Bytes} (hw : Blank ws) (hw' : Blank ws') : Blank (ws ++ ws') := fun b hb =>
  (List.mem_append.1 hb).elim (hw b) (hw' b)

theorem Sequence.pad (hw : Blank ws) (h : Sequence t vs) : Sequence (ws ++ t) vs := by
  cases h with
  | one hw₁ h hw' =>
    rw [← List.append_assoc]
    exact .one (hw.append hw₁) h hw'
  | more hw₁ h hw' hs =>
    rw [← List.append_assoc]
    exact .more (hw.append hw₁) h hw' hs

theorem Sequence.opens (h : Sequence t vs) :
    ∃ ws u b u', t = ws ++ u ∧ Blank ws ∧ Sequence u vs ∧ u = b :: u' ∧ ∃ v, Opens v b := by
  cases h with
  | @one ws _ _ v hw h hw' =>
    obtain ⟨b, u, rfl, hb⟩ := h.opens
    exact ⟨ws, _, b, _, rfl, hw, .one blank_nil h hw', rfl, v, hb⟩
  | @more ws _ _ _ v _ hw h hw' hs =>
    obtain ⟨b, u, rfl, hb⟩ := h.opens
    exact ⟨ws, _, b, _, rfl, hw, .more blank_nil h hw' hs, rfl, v, hb⟩

/-- Behind blanks, the closing byte comes next exactly if there are no items. -/
theorem Items.next {closing : UInt8} (h : Items t vs) (hclosing : Closes closing) :
    (vs = [] ∧ trim (t ++ closing :: r) = closing :: r) ∨
      ∃ b u, trim (t ++ closing :: r) = b :: (u ++ closing :: r) ∧ Sequence (b :: u) vs ∧ b ≠ closing := by
  cases h with
  | none hw => exact .inl ⟨rfl, trim_behind hw hclosing.not_blank⟩
  | some hs =>
    obtain ⟨ws, _, b, u, rfl, hw, hu, rfl, v, hb⟩ := hs.opens
    refine .inr ⟨b, u, ?_, hu, fun h => hb.not_closes (h ▸ hclosing)⟩
    rw [List.append_assoc, trim_append hw]
    exact trim_cons hb.not_blank

namespace Reader

/-- A value of limited nesting is read, and the rest is left. -/
def Accepts (room : Nat) (r : Bytes) (v : Value) (r' : Bytes) : Prop :=
  ∃ t u, trim r = t ++ u ∧ Denotes t v ∧ v.nesting ≤ room ∧ Leaves v u r'

variable {item : Reader Value} {room : Nat} {closing : UInt8}

/-- What may stand behind an item: the closing byte, or a comma and what the reader `x` takes then. -/
theorem separator_gives {x : Reader (List Value)} {T : Bytes → List Value → Bytes → Prop} {us : List Value}
    (hcomma : ','.toUInt8 ≠ closing) (hx : ∀ u, trim r = ','.toUInt8 :: u → Gives x u (T u)) :
    Gives (do
      let b ← peek
      advance
      if b == closing then return us
      else if b == ','.toUInt8 then x
      else failBehind (.expectedSeparator closing)) r (fun vs r' =>
        (trim r = closing :: r' ∧ vs = us) ∨ ∃ u, trim r = ','.toUInt8 :: u ∧ T u vs r') := by
  refine Gives.peek_bind ?_ fun b u htrim => advance_gives.after ?_
  · rintro hnil vs r' (⟨h, -⟩ | ⟨u, h, -⟩) <;> rw [hnil] at h <;> cases h
  · rw [htrim]
    by_cases hb : b = closing
    · subst hb
      rw [if_pos (beq_self_eq_true b)]
      refine (Gives.pure us).congr fun vs r' => ?_
      constructor
      · rintro ⟨rfl, rfl⟩
        exact .inl ⟨rfl, rfl⟩
      · rintro (⟨⟨⟩, hvs⟩ | ⟨_, h, _⟩)
        · exact ⟨hvs, rfl⟩
        · exact absurd (List.cons.inj h).1.symm hcomma
    rw [if_neg (fun h => hb (beq_iff_eq.1 h))]
    by_cases hb' : b = ','.toUInt8
    · subst hb'
      rw [if_pos (beq_self_eq_true _)]
      refine (hx u htrim).congr fun vs r' => ?_
      constructor
      · intro hT
        exact .inr ⟨u, rfl, hT⟩
      · rintro (⟨h, -⟩ | ⟨_, ⟨⟩, hT⟩)
        · exact absurd (List.cons.inj h).1 hb
        · exact hT
    · rw [if_neg (fun h => hb' (beq_iff_eq.1 h))]
      refine .failBehind _ fun vs r' => ?_
      rintro (⟨h, -⟩ | ⟨_, h, _⟩)
      · exact hb (List.cons.inj h).1
      · exact hb' (List.cons.inj h).1

theorem Accepts.split {w : Bytes} (h : Accepts room r v r') (hw : trim r' = w) :
    ∃ ws t ws', r = ws ++ (t ++ (ws' ++ w)) ∧ Blank ws ∧ Denotes t v ∧ Blank ws' ∧ v.nesting ≤ room := by
  obtain ⟨t, u, htrim, hd, hroom, hleaves⟩ := h
  obtain ⟨ws, hws, hr⟩ := exists_blank r
  obtain ⟨ws', hws', hu⟩ := exists_blank u
  rw [htrim] at hr
  rw [← hleaves.trim_eq, hw] at hu
  exact ⟨ws, t, ws', by rw [hr, ← hu], hws, hd, hws', hroom⟩

theorem Accepts.of_denotes (hd : Denotes t v) (hroom : v.nesting ≤ room) (hw : Blank ws) (hends : Ends u) :
    ∃ r', Accepts room (ws ++ (t ++ u)) v r' ∧ trim r' = trim u := by
  obtain ⟨r', hleaves⟩ := hends.leaves v
  exact ⟨r', ⟨t, u, by rw [trim_append hw, hd.trim_append], hd, hroom, hleaves⟩, hleaves.trim_eq⟩

theorem items_gives (hclosing : Closes closing) (hitem : ∀ r, Gives item r (Accepts room r)) (fuel : Nat) :
    ∀ (taken : List Value) (r : Bytes), r.length ≤ fuel → Gives (items item closing fuel taken) r (fun vs r' =>
      ∃ t us, r = t ++ closing :: r' ∧ Sequence t us ∧ Value.nestingAll us ≤ room ∧ vs = taken.reverse ++ us) := by
  induction fuel with
  | zero =>
    intro taken r hr
    refine .fail _ fun vs r' => ?_
    rintro ⟨t, us, rfl, -⟩
    rw [List.length_append, List.length_cons] at hr
    omega
  | succ fuel ih =>
    intro taken r hr
    have hcomma : ','.toUInt8 ≠ closing := by
      rcases hclosing with rfl | rfl <;> decide
    -- an item and what separates it from the next one take bytes, so the fuel lasts as long as bytes are left
    refine ((hitem r).bind fun v r₁ hv => separator_gives hcomma fun u hu => ih (v :: taken) u ?_).congr fun vs r' => ?_
    · have hlen := length_trim_le r₁
      have hle := (hitem r).length_le hv
      rw [hu, List.length_cons] at hlen
      omega
    · constructor
      · rintro ⟨v, r₁, hv, ⟨htrim, rfl⟩ | ⟨_, htrim, t', us, rfl, hs, hroom, rfl⟩⟩
        · obtain ⟨ws, t, ws', rfl, hw, hd, hw', hnest⟩ := hv.split htrim
          refine ⟨_, [v], ?_, .one hw hd hw', ?_, ?_⟩
          · simp only [List.append_assoc]
          · rwa [Value.nestingAll, Value.nestingAll, Nat.max_eq_left (Nat.zero_le _)]
          · rw [List.reverse_cons]
        · obtain ⟨ws, t, ws', rfl, hw, hd, hw', hnest⟩ := hv.split htrim
          refine ⟨_, v :: us, ?_, .more hw hd hw' hs, ?_, ?_⟩
          · simp only [List.append_assoc, List.cons_append]
          · rw [Value.nestingAll]
            exact Nat.max_le.2 ⟨hnest, hroom⟩
          · rw [List.reverse_cons, List.append_assoc, List.singleton_append]
      · rintro ⟨_, us, rfl, hs, hroom, rfl⟩
        cases hs with
        | one hw hd hw' =>
          rw [Value.nestingAll, Value.nestingAll, Nat.max_eq_left (Nat.zero_le _)] at hroom
          have hblank := hclosing.not_blank
          obtain ⟨r₁, hv, htrim⟩ :=
            Accepts.of_denotes hd hroom hw (ends_of_trim (trim_behind hw' hblank) (.inr hclosing))
          simp only [List.append_assoc]
          exact ⟨_, r₁, hv, .inl ⟨htrim.trans (trim_behind hw' hblank), by rw [List.reverse_cons]⟩⟩
        | more hw hd hw' hs =>
          rw [Value.nestingAll, Nat.max_le] at hroom
          have hblank : isBlank ','.toUInt8 = false := by decide
          obtain ⟨r₁, hv, htrim⟩ :=
            Accepts.of_denotes hd hroom.1 hw (ends_of_trim (trim_behind hw' hblank) (.inl rfl))
          simp only [List.append_assoc, List.cons_append]
          exact ⟨_, r₁, hv, .inr ⟨_, htrim.trans (trim_behind hw' hblank), _, _, rfl, hs, hroom.2, by simp⟩⟩

/-- The items up to the closing byte, of which there are no more than bytes left. -/
def allItems (item : Reader Value) (closing : UInt8) : Reader (List Value) :=
  fun c => items item closing (c.size - c.pos) [] c

def enclosed (item : Reader Value) (closing : UInt8) : Reader (List Value) := do
  if (← peek) == closing then
    advance
    return []
  else allItems item closing

theorem sequenceOf_eq (opening : UInt8) : sequenceOf (some item) opening closing = (do
    expect opening
    modify fun c => { c with depth := c.depth + 1 }
    let vs ← enclosed item closing
    modify fun c => { c with depth := c.depth - 1 }
    return vs) := by
  refine bind_congr fun _ => bind_congr fun _ => ?_
  rw [enclosed, bind_assoc]
  refine bind_congr fun b => ?_
  by_cases hb : (b == closing) = true
  · rw [if_pos hb, if_pos hb, bind_assoc]
  · rw [if_neg hb, if_neg hb]
    rfl

theorem Gives.nested {α : Type} {x : Reader α} {R : α → Bytes → Prop} (h : Gives x r R) :
    Gives (do
      modify fun c => { c with depth := c.depth + 1 }
      let v ← x
      modify fun c => { c with depth := c.depth - 1 }
      return v) r R := by
  refine ⟨h.length_le, fun {n d} hn v c => ?_⟩
  have hrun := h.run hn (d := d + 1)
  rw [bind_eq_ok]
  constructor
  · rintro ⟨_, _, ⟨⟩, hx⟩
    obtain ⟨a, c₁, ha, hc⟩ := bind_eq_ok.1 hx
    obtain ⟨r', hR, rfl⟩ := (hrun a c₁).1 ha
    cases hc
    exact ⟨r', hR, rfl⟩
  · rintro ⟨r', hR, rfl⟩
    refine ⟨(), .facing n (d + 1) r, rfl, bind_eq_ok.2 ⟨v, _, (hrun v _).2 ⟨r', hR, rfl⟩, rfl⟩⟩

theorem allItems_gives (hclosing : Closes closing) (hitem : ∀ r, Gives item r (Accepts room r)) :
    Gives (allItems item closing) r (fun vs r' =>
      ∃ t, r = t ++ closing :: r' ∧ Sequence t vs ∧ Value.nestingAll vs ≤ room) := by
  have hitems := items_gives hclosing hitem r.length [] r le_rfl
  refine Gives.congr (R := fun vs r' => ∃ t us, r = t ++ closing :: r' ∧ Sequence t us ∧ Value.nestingAll us ≤ room ∧
    vs = [].reverse ++ us) ⟨hitems.length_le, fun {n d} hn vs c => ?_⟩ fun vs r' => ?_
  · rw [← hitems.run hn]
    have hfuel : n - (n - r.length) = r.length := by omega
    show items item closing (n - (n - r.length)) [] _ = _ ↔ _
    rw [hfuel]
  · constructor
    · rintro ⟨t, us, hr, hs, hroom, rfl⟩
      exact ⟨t, hr, hs, hroom⟩
    · rintro ⟨t, hr, hs, hroom⟩
      exact ⟨t, vs, hr, hs, hroom, rfl⟩

theorem enclosed_gives (hclosing : Closes closing) (hitem : ∀ r, Gives item r (Accepts room r)) :
    Gives (enclosed item closing) r (fun vs r' =>
      ∃ t, r = t ++ closing :: r' ∧ Items t vs ∧ Value.nestingAll vs ≤ room) := by
  obtain ⟨ws, hw, hr⟩ := exists_blank r
  refine Gives.peek_bind ?_ fun b w htrim => ?_
  · rintro hnil vs r' ⟨t, rfl, hitems, -⟩
    rcases hitems.next hclosing with ⟨-, h⟩ | ⟨b, u, h, -, -⟩ <;> cases hnil.symm.trans h
  rw [htrim] at hr
  by_cases hb : b = closing
  · subst hb
    rw [if_pos (beq_self_eq_true b)]
    refine (advance_gives.after (Gives.pure [])).congr fun vs r' => ?_
    constructor
    · rintro ⟨rfl, rfl⟩
      exact ⟨ws, hr, .none hw, Nat.zero_le _⟩
    · rintro ⟨t, rfl, hitems, -⟩
      rcases hitems.next hclosing with ⟨hvs, h⟩ | ⟨b', u, h, -, hb'⟩
      · cases htrim.symm.trans h
        exact ⟨hvs, rfl⟩
      · exact absurd (List.cons.inj (htrim.symm.trans h)).1.symm hb'
  · rw [if_neg (fun h => hb (beq_iff_eq.1 h))]
    refine (allItems_gives hclosing hitem).congr fun vs r' => ?_
    constructor
    · rintro ⟨t, hw', hs, hroom⟩
      exact ⟨ws ++ t, by rw [hr, hw', List.append_assoc], .some (hs.pad hw), hroom⟩
    · rintro ⟨t, rfl, hitems, hroom⟩
      rcases hitems.next hclosing with ⟨-, h⟩ | ⟨b', u, h, hs, -⟩
      · exact absurd (List.cons.inj (htrim.symm.trans h)).1 hb
      · exact ⟨b' :: u, htrim.symm.trans h, hs, hroom⟩

/-- The reader of items inside a value that nests at most so deep. -/
def itemWithin : (room : Nat) → Option (Reader Value)
  | 0 => none
  | room + 1 => some (valueWithin room)

theorem valueWithin_eq (room : Nat) : valueWithin room = valueOf (itemWithin room) := by
  cases room <;> rfl

/-- Every value that nests less deep is read by the grammar. -/
def Reads (room : Nat) : Prop := ∀ k < room, ∀ r, Gives (valueWithin k) r (Accepts k r)

theorem sequenceOf_gives {opening : UInt8} (hclosing : Closes closing) (hitem : Reads room) :
    Gives (sequenceOf (itemWithin room) opening closing) r (fun vs r' =>
      ∃ t, trim r = opening :: (t ++ closing :: r') ∧ Items t vs ∧ Value.nestingAll vs < room) := by
  cases room with
  | zero =>
    refine (expect_gives.bind (T := fun _ _ _ _ => False) fun _ _ _ => .failBehind _ fun _ _ h => h).congr fun vs r' => ?_
    constructor
    · rintro ⟨_, _, -, ⟨⟩⟩
    · rintro ⟨_, _, _, h⟩
      exact absurd h (Nat.not_lt_zero _)
  | succ k =>
    rw [itemWithin, sequenceOf_eq]
    refine (expect_gives.bind fun _ u _ =>
      (enclosed_gives hclosing (hitem k (Nat.lt_succ_self k))).nested).congr fun vs r' => ?_
    constructor
    · rintro ⟨_, _, htrim, t, rfl, hitems, hroom⟩
      exact ⟨t, htrim, hitems, Nat.lt_succ_of_le hroom⟩
    · rintro ⟨t, htrim, hitems, hroom⟩
      exact ⟨(), _, htrim, t, rfl, hitems, Nat.le_of_lt_succ hroom⟩

/-! ## Values -/

section

variable {w : Bytes}

theorem Accepts.opens (h : Accepts room r v r') (htrim : trim r = b :: w) : Opens v b := by
  obtain ⟨t, u, ht, hd, -⟩ := h
  obtain ⟨b', t', rfl, hb⟩ := hd.opens
  cases htrim.symm.trans ht
  exact hb

theorem trim_self (htrim : trim r = b :: w) : trim (b :: w) = trim r := by
  rw [← htrim, trim_trim]

theorem integerValue_gives (htrim : trim r = b :: w) (hb : b = '-'.toUInt8 ∨ isDigit b = true) :
    Gives (do return .integer (← integer)) (b :: w) (Accepts room r) := by
  refine (integer_gives.bind fun n _ _ => Gives.pure (Value.integer n)).congr fun v r' => ?_
  rw [trim_self htrim]
  constructor
  · rintro ⟨n, _, ⟨t, ht, hnum, hclear⟩, rfl, rfl⟩
    exact ⟨t, _, ht, .integer hnum, Nat.zero_le _, hclear, rfl⟩
  · intro h
    obtain ⟨n, rfl⟩ := (h.opens htrim).integer hb
    obtain ⟨t, _, ht, hd, -, hclear, rfl⟩ := h
    cases hd with
    | integer hnum => exact ⟨n, _, ⟨t, ht, hnum, hclear⟩, rfl, rfl⟩

theorem stringValue_gives (htrim : trim r = '"'.toUInt8 :: w) :
    Gives (do return .string (← string)) ('"'.toUInt8 :: w) (Accepts room r) := by
  refine (string_gives.bind fun s _ _ => Gives.pure (Value.string s)).congr fun v r' => ?_
  rw [trim_self htrim]
  constructor
  · rintro ⟨s, _, ⟨body, ht, hbody⟩, rfl, rfl⟩
    refine ⟨_, _, ?_, .string hbody, Nat.zero_le _, rfl⟩
    rw [ht, List.cons_append, List.append_assoc, List.singleton_append]
  · intro h
    obtain ⟨s, rfl⟩ := (h.opens htrim).string
    obtain ⟨_, _, ht, hd, -, rfl⟩ := h
    cases hd with
    | string hbody =>
      rw [List.cons_append, List.append_assoc, List.singleton_append] at ht
      exact ⟨s, _, ⟨_, ht, hbody⟩, rfl, rfl⟩

theorem listValue_gives (hitem : Reads room) (htrim : trim r = '\x7b'.toUInt8 :: w) :
    Gives (do return .list (← sequenceOf (itemWithin room) '\x7b'.toUInt8 '\x7d'.toUInt8)) ('\x7b'.toUInt8 :: w)
      (Accepts room r) := by
  refine ((sequenceOf_gives (.inl rfl) hitem).bind fun vs _ _ => Gives.pure (Value.list vs)).congr fun v r' => ?_
  rw [trim_self htrim]
  constructor
  · rintro ⟨vs, _, ⟨t, ht, hitems, hroom⟩, rfl, rfl⟩
    refine ⟨_, _, ?_, .list hitems, by rwa [Value.nesting], rfl⟩
    rw [ht, List.cons_append, List.append_assoc, List.singleton_append]
  · intro h
    obtain ⟨vs, rfl⟩ := (h.opens htrim).list
    obtain ⟨_, _, ht, hd, hroom, rfl⟩ := h
    cases hd with
    | list hitems =>
      rw [List.cons_append, List.append_assoc, List.singleton_append] at ht
      rw [Value.nesting] at hroom
      exact ⟨vs, _, ⟨_, ht, hitems, hroom⟩, rfl, rfl⟩

theorem application_gives (hitem : Reads room) (name : Bytes) :
    Gives (do
      blanks
      if ← nextIs '['.toUInt8 then return Value.function name (← sequenceOf (itemWithin room) '['.toUInt8 ']'.toUInt8)
      else return Value.symbol name) r (fun v r' =>
        (∃ vs t, trim r = '['.toUInt8 :: (t ++ ']'.toUInt8 :: r') ∧ Items t vs ∧ Value.nestingAll vs < room ∧
          v = .function name vs) ∨ ((trim r).head? ≠ some '['.toUInt8 ∧ v = .symbol name ∧ r' = trim r)) := by
  refine blanks_gives.after (nextIs_gives.after ?_)
  by_cases hhead : (trim r).head? = some '['.toUInt8
  · rw [if_pos (beq_iff_eq.2 hhead)]
    refine ((sequenceOf_gives (.inr rfl) hitem).bind fun vs _ _ => Gives.pure (Value.function name vs)).congr fun v r' => ?_
    rw [trim_trim]
    constructor
    · rintro ⟨vs, _, ⟨t, ht, hitems, hroom⟩, rfl, rfl⟩
      exact .inl ⟨vs, t, ht, hitems, hroom, rfl⟩
    · rintro (⟨vs, t, ht, hitems, hroom, rfl⟩ | ⟨hne, -⟩)
      · exact ⟨vs, r', ⟨t, ht, hitems, hroom⟩, rfl, rfl⟩
      · exact absurd hhead hne
  · rw [if_neg (fun h => hhead (beq_iff_eq.1 h))]
    refine (Gives.pure (Value.symbol name)).congr fun v r' => ?_
    constructor
    · rintro ⟨rfl, rfl⟩
      exact .inr ⟨hhead, rfl, rfl⟩
    · rintro (⟨vs, t, ht, -⟩ | ⟨-, rfl, rfl⟩)
      · rw [ht] at hhead
        exact absurd rfl hhead
      · exact ⟨rfl, rfl⟩

theorem clear_blank_append (hw : Blank ws) (hb : isNameByte b = false) : Clear isNameByte (ws ++ b :: r) := by
  cases ws with
  | nil => exact clear_cons.2 hb
  | cons b' ws =>
    have hb' := isBlank_iff.1 (hw b' List.mem_cons_self)
    refine clear_cons.2 ?_
    rw [Bool.eq_false_iff, ne_eq, isNameByte_iff, isNameStart_iff, isDigit_iff]
    omega

theorem namedValue_gives (hitem : Reads room) (htrim : trim r = b :: w) (hb : isNameStart b = true) :
    Gives (do
      let name ← identifier
      blanks
      if ← nextIs '['.toUInt8 then return Value.function name (← sequenceOf (itemWithin room) '['.toUInt8 ']'.toUInt8)
      else return Value.symbol name) (b :: w) (Accepts room r) := by
  refine (identifier_gives.bind fun name _ _ => application_gives hitem name).congr fun v r' => ?_
  rw [trim_self htrim]
  constructor
  · rintro ⟨name, r₁, ⟨hr, hne, hall, hclear⟩, happ⟩
    have hname : IsIdentifier name = true := by
      obtain ⟨b', name', rfl⟩ := List.exists_cons_of_ne_nil hne
      cases htrim.symm.trans hr
      exact isIdentifier_iff.2 ⟨⟨_, _, rfl, hb⟩, hall⟩
    rcases happ with ⟨vs, t, ht, hitems, hroom, rfl⟩ | ⟨hhead, rfl, rfl⟩
    · obtain ⟨ws, hw, hr₁⟩ := exists_blank r₁
      refine ⟨_, r', ?_, .function hname hw hitems, by rwa [Value.nesting], rfl⟩
      rw [hr, hr₁, ht]
      simp only [List.append_assoc, List.cons_append, List.nil_append]
    · exact ⟨name, r₁, hr, .symbol hname, Nat.zero_le _, hclear, hhead, rfl⟩
  · intro h
    rcases (h.opens htrim).named hb with ⟨name, rfl⟩ | ⟨head, vs, rfl⟩
    · obtain ⟨t, u, ht, hd, -, hclear, hhead, rfl⟩ := h
      cases hd with
      | symbol hname =>
        obtain ⟨⟨_, _, rfl, -⟩, hall⟩ := isIdentifier_iff.1 hname
        exact ⟨_, u, ⟨ht, List.cons_ne_nil _ _, hall, hclear⟩, .inr ⟨hhead, rfl, rfl⟩⟩
    · obtain ⟨_, _, ht, hd, hroom, rfl⟩ := h
      cases hd with
      | function hname hw hitems =>
        obtain ⟨⟨_, _, rfl, -⟩, hall⟩ := isIdentifier_iff.1 hname
        rw [Value.nesting] at hroom
        simp only [List.append_assoc, List.cons_append, List.nil_append] at ht
        refine ⟨_, _, ⟨ht, List.cons_ne_nil _ _, hall, clear_blank_append hw (by decide)⟩, ?_⟩
        exact .inl ⟨vs, _, trim_behind hw (by decide), hitems, hroom, rfl⟩

theorem valueOf_gives (hitem : Reads room) : Gives (valueOf (itemWithin room)) r (Accepts room r) := by
  refine Gives.peek_bind ?_ fun b w htrim => ?_
  · rintro hnil v r' ⟨t, u, htrim, hd, -⟩
    obtain ⟨b, t', rfl, -⟩ := hd.opens
    cases hnil.symm.trans htrim
  by_cases hint : b = '-'.toUInt8 ∨ isDigit b = true
  · rw [if_pos (by rwa [Bool.or_eq_true, beq_iff_eq])]
    exact integerValue_gives htrim hint
  rw [if_neg (by rwa [Bool.or_eq_true, beq_iff_eq])]
  by_cases hquote : b = '"'.toUInt8
  · subst hquote
    exact stringValue_gives htrim
  rw [if_neg (fun h => hquote (beq_iff_eq.1 h))]
  by_cases hbrace : b = '\x7b'.toUInt8
  · subst hbrace
    exact listValue_gives hitem htrim
  rw [if_neg (fun h => hbrace (beq_iff_eq.1 h))]
  by_cases hname : isNameStart b = true
  · rw [if_pos hname]
    exact namedValue_gives hitem htrim hname
  · rw [if_neg hname]
    refine .fail _ fun v r' h => ?_
    have hopens := h.opens htrim
    cases v with
    | integer n => exact hint hopens
    | string s => exact hquote hopens
    | list vs => exact hbrace hopens
    | symbol name => exact hname hopens
    | function head vs => exact hname hopens

end

theorem valueWithin_gives (room : Nat) (r : Bytes) : Gives (valueWithin room) r (Accepts room r) := by
  induction room using Nat.strong_induction_on generalizing r with
  | _ room ih =>
    rw [valueWithin_eq]
    exact valueOf_gives ih

/-! ## Whole texts -/

theorem value_start (text : Bytes) : value (Cursor.start text) = valueWithin maxDepth (Cursor.start text) := by
  rw [valueWithin_eq]
  rfl

/-- Behind a value, nothing but blanks may come. -/
theorem finish_gives (v : Value) : Gives (do
    blanks
    if (← get).atEnd then return v else fail .trailing) r (fun v' r' => (v' = v ∧ r' = trim r) ∧ trim r = []) := by
  refine blanks_gives.after (Gives.get_bind fun n d => ?_)
  show Gives (ite ((trim r).isEmpty = true) _ _) _ _
  by_cases hend : trim r = []
  · rw [if_pos (List.isEmpty_iff.2 hend)]
    refine (Gives.pure v).congr fun v' r' => ?_
    rw [and_iff_left hend]
  · rw [if_neg (fun h => hend (List.isEmpty_iff.1 h))]
    exact .fail _ fun v' r' h => hend h.2

theorem parse_run {text : Bytes} {c : Cursor} : Reader.parse (Cursor.start text) = .ok v c ↔
    ∃ r, (Accepts maxDepth text v r ∧ trim r = []) ∧ c = .facing text.length 0 [] := by
  have hgives := (valueWithin_gives maxDepth text).bind fun v _ _ => finish_gives v
  have hrun := hgives.run (d := 0) (Nat.le_refl text.length) v c
  rw [Reader.parse, bind_eq_ok, value_start, ← bind_eq_ok, Cursor.start_eq, hrun]
  constructor
  · rintro ⟨_, ⟨_, r, haccepts, ⟨rfl, rfl⟩, hend⟩, rfl⟩
    exact ⟨r, ⟨haccepts, hend⟩, by rw [hend]⟩
  · rintro ⟨r, ⟨haccepts, hend⟩, rfl⟩
    exact ⟨_, ⟨v, r, haccepts, ⟨rfl, hend.symm⟩, hend⟩, rfl⟩

end Reader

/-- **What texts are read as.** A text is read as a value exactly if it denotes the value and the value does not nest too
deep. -/
theorem parse_eq_ok_iff {text : Bytes} {v : Value} : parse text = .ok v ↔ IsText text v ∧ v.nesting ≤ maxDepth := by
  have hparse : parse text = .ok v ↔ ∃ c, Reader.parse (Cursor.start text) = .ok v c := by
    unfold parse
    cases Reader.parse (Cursor.start text) with
    | ok v' c =>
      constructor
      · rintro ⟨⟩
        exact ⟨c, rfl⟩
      · rintro ⟨_, ⟨⟩⟩
        rfl
    | error e c =>
      constructor
      · rintro ⟨⟩
      · rintro ⟨_, ⟨⟩⟩
  rw [hparse]
  constructor
  · rintro ⟨c, hc⟩
    obtain ⟨r, ⟨haccepts, hend⟩, -⟩ := Reader.parse_run.1 hc
    obtain ⟨ws, t, ws', rfl, hw, hd, hw', hroom⟩ := haccepts.split hend
    rw [List.append_nil]
    exact ⟨⟨ws, t, ws', rfl, hw, hd, hw'⟩, hroom⟩
  · rintro ⟨⟨ws, t, ws', rfl, hw, hd, hw'⟩, hroom⟩
    have htrim : trim ws' = [] := trim_blank hw'
    have hends : Ends ws' := by
      intro b hb
      rw [htrim] at hb
      cases hb
    obtain ⟨r, haccepts, hr⟩ := Reader.Accepts.of_denotes hd hroom hw hends
    exact ⟨_, Reader.parse_run.2 ⟨r, ⟨haccepts, hr.trans htrim⟩, rfl⟩⟩

/-! ## Round trip -/

theorem parse_render (hnames : v.WellNamed = true) (hdepth : v.nesting ≤ maxDepth) : parse v.render = .ok v := by
  rw [parse_eq_ok_iff]
  refine ⟨⟨[], v.render, [], ?_, blank_nil, denotes_render v hnames, blank_nil⟩, hdepth⟩
  rw [List.append_nil, List.nil_append]

theorem wellNamed_of_parse {text : Bytes} (h : parse text = .ok v) : v.WellNamed = true ∧ v.nesting ≤ maxDepth := by
  obtain ⟨⟨ws, t, ws', -, -, hd, -⟩, hdepth⟩ := parse_eq_ok_iff.1 h
  exact ⟨hd.wellNamed, hdepth⟩

/-- **Texts and values**: those values are read back from their rendering whose names are identifiers and that nest at
most 512 deep, and only such values are read. -/
theorem parse_render_iff : (∀ v : Value, parse v.render = .ok v ↔ v.WellNamed = true ∧ v.nesting ≤ 512) ∧
    ∀ (text : Bytes) (v : Value), parse text = .ok v →
      (v.WellNamed = true ∧ v.nesting ≤ 512) ∧ parse v.render = .ok v := by
  refine ⟨fun v => ⟨fun h => wellNamed_of_parse h, fun ⟨hnames, hdepth⟩ => parse_render hnames hdepth⟩, ?_⟩
  intro text v h
  obtain ⟨hnames, hdepth⟩ := wellNamed_of_parse h
  exact ⟨⟨hnames, hdepth⟩, parse_render hnames hdepth⟩

/-- A value of every kind, with the least integer, a quote in a string and a name of one letter. -/
def assorted : Value :=
  .function (Bytes.ofString "f")
    [.integer Int64.minValue, .list [.string (Bytes.ofString "a\"b")], .symbol (Bytes.ofString "$x")]

theorem parse_render_iff_assorted :
    parse (Bytes.ofString " f [-9223372036854775808,\x7b\"a\\\"b\"\x7d , $x]\n") = .ok assorted ∧
      (assorted.WellNamed = true ∧ assorted.nesting ≤ 512) ∧ parse assorted.render = .ok assorted := by
  have hparse : parse (Bytes.ofString " f [-9223372036854775808,\x7b\"a\\\"b\"\x7d , $x]\n") = .ok assorted := by
    decide +kernel
  exact ⟨hparse, parse_render_iff.2 _ _ hparse⟩

end StateSpace.Wire
