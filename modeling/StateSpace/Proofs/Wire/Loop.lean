import StateSpace.Proofs.Wire.Steady

/-!
# The loop over the items of a sequence

`Reader.items` counts its rounds down. Every round takes a byte, so the count never decides anything.

* `Loop item closing taken c result` : round after round without a count, the loop comes to an end with `result`;
* `Takes item n d` : the reader of items stays in the text and in its list; `valueWithin_takes` : values do;
* `items_loop` : the items are what the loop ends with, given a count of at least as many rounds as there are bytes;
* `loop`, `loop_run` : the reader without a count, and the equation of its rounds;
* `Loop.nesting` : the items are of limited nesting, whatever byte ends the loop.
-/

namespace StateSpace.Wire.Reader

variable {item : Reader Value} {closing : UInt8} {room n d : Nat} {r : Bytes} {taken : List Value}

/-- The rounds of the loop, without a bound on their number: an item and the byte behind it, which ends the loop or
starts the next round. -/
inductive Loop (item : Reader Value) (closing : UInt8) :
    List Value → Cursor → EStateM.Result ParseError Cursor (List Value) → Prop
  | noItem {taken : List Value} {c c' : Cursor} {e : ParseError} (hitem : item c = .error e c') :
    Loop item closing taken c (.error e c')
  | noByte {taken : List Value} {c c₁ c' : Cursor} {v : Value} {e : ParseError} (hitem : item c = .ok v c₁)
      (hbyte : peek c₁ = .error e c') : Loop item closing taken c (.error e c')
  | closed {taken : List Value} {c c₁ c₂ : Cursor} {v : Value} (hitem : item c = .ok v c₁)
      (hbyte : peek c₁ = .ok closing c₂) : Loop item closing taken c (.ok (v :: taken).reverse c₂.next)
  | comma {taken : List Value} {c c₁ c₂ : Cursor} {v : Value} {result : EStateM.Result ParseError Cursor (List Value)}
      (hitem : item c = .ok v c₁) (hbyte : peek c₁ = .ok ','.toUInt8 c₂) (hopen : ','.toUInt8 ≠ closing)
      (hloop : Loop item closing (v :: taken) c₂.next result) : Loop item closing taken c result
  | stray {taken : List Value} {c c₁ c₂ : Cursor} {v : Value} {b : UInt8} (hitem : item c = .ok v c₁)
      (hbyte : peek c₁ = .ok b c₂) (hopen : b ≠ closing) (hstray : b ≠ ','.toUInt8) :
    Loop item closing taken c (.error ⟨.expectedSeparator closing, c₂.pos⟩ c₂.next)

theorem Loop.unique {c : Cursor} {result result' : EStateM.Result ParseError Cursor (List Value)}
    (h : Loop item closing taken c result) (h' : Loop item closing taken c result') : result = result' := by
  induction h with
  | noItem hitem => cases h' <;> grind
  | noByte hitem hbyte => cases h' <;> grind
  | closed hitem hbyte => cases h' <;> grind
  | comma hitem hbyte hopen hloop ih => cases h' <;> grind
  | stray hitem hbyte hopen hstray => cases h' <;> grind

/-- With the text and the list it stands in, the reader goes forward in the text and stays in the list, and needs a
byte. -/
structure Takes (item : Reader Value) (n d : Nat) : Prop where
  ok : ∀ {r v c}, r.length ≤ n → item (.facing n d r) = .ok v c → ∃ r', c = .facing n d r' ∧ r'.length ≤ r.length
  nil : item (.facing n d []) = .error ⟨.unexpectedEnd, n⟩ (.facing n d [])

theorem valueWithin_ok {v : Value} {c : Cursor} (hn : r.length ≤ n) (h : valueWithin room (.facing n d r) = .ok v c) :
    ∃ r', c = .facing n d r' ∧ v.nesting ≤ room ∧ r'.length ≤ r.length := by
  obtain ⟨r', haccepts, rfl⟩ := ((valueWithin_gives room r).run hn v c).1 h
  have hlen := (valueWithin_gives room r).length_le haccepts
  obtain ⟨_, _, _, _, hnesting, _⟩ := haccepts
  exact ⟨r', rfl, hnesting, hlen⟩

theorem valueWithin_takes (room n d : Nat) : Takes (valueWithin room) n d := by
  constructor
  · intro r v c hn h
    obtain ⟨r', hc, -, hlen⟩ := valueWithin_ok hn h
    exact ⟨r', hc, hlen⟩
  · rw [valueWithin_eq]
    exact bind_eq_error.2 (.inl (peek_run_nil rfl (Nat.zero_le n)))

theorem peek_ok {b : UInt8} {c : Cursor} (hn : r.length ≤ n) (h : peek (.facing n d r) = .ok b c) :
    ∃ u, c = .facing n d (b :: u) ∧ c.next = .facing n d u ∧ (b :: u).length ≤ r.length := by
  obtain ⟨_, ⟨rfl, hhead⟩, rfl⟩ := (peek_gives.run hn b c).1 h
  obtain ⟨u, hu⟩ := List.head?_eq_some_iff.1 hhead
  have hlen := length_trim_le r
  rw [hu] at hlen ⊢
  exact ⟨u, rfl, Cursor.next_facing (hlen.trans hn), hlen⟩

/-- The items, with a count of at least as many rounds as there are bytes, are what the loop ends with. -/
theorem items_loop {fuel : Nat} (htakes : Takes item n d) (hn : r.length ≤ n) (hfuel : r.length ≤ fuel) :
    Loop item closing taken (.facing n d r) (items item closing fuel taken (.facing n d r)) := by
  induction fuel generalizing taken r with
  | zero =>
    have hr : r = [] := List.eq_nil_of_length_eq_zero (Nat.le_zero.1 hfuel)
    rw [hr]
    exact .noItem htakes.nil
  | succ fuel ih =>
    rw [items]
    cases hitem : item (.facing n d r) with
    | error e c =>
      rw [bind_eq_error.2 (.inl hitem)]
      exact .noItem hitem
    | ok v c₁ =>
      obtain ⟨r₁, rfl, hr₁⟩ := htakes.ok hn hitem
      rw [bind_run hitem]
      cases hbyte : peek (.facing n d r₁) with
      | error e c =>
        rw [bind_eq_error.2 (.inl hbyte)]
        exact .noByte hitem hbyte
      | ok b c₂ =>
        obtain ⟨u, rfl, hnext, hu⟩ := peek_ok (hr₁.trans hn) hbyte
        rw [bind_run hbyte, bind_run (advance_yields n d (by omega))]
        rw [List.length_cons] at hu
        by_cases hclosing : b = closing
        · subst hclosing
          rw [if_pos (beq_self_eq_true b), ← hnext]
          exact .closed hitem hbyte
        rw [if_neg (fun h => hclosing (beq_iff_eq.1 h))]
        by_cases hcomma : b = ','.toUInt8
        · subst hcomma
          rw [if_pos (beq_self_eq_true _)]
          refine .comma hitem hbyte hclosing ?_
          rw [hnext]
          exact ih (by omega) (by omega)
        · rw [if_neg (fun h => hcomma (beq_iff_eq.1 h)), ← hnext]
          exact .stray hitem hbyte hclosing hcomma

theorem items_fuel {fuel fuel' : Nat} (htakes : Takes item n d) (hn : r.length ≤ n) (hfuel : r.length ≤ fuel)
    (hfuel' : r.length ≤ fuel') :
    items item closing fuel taken (.facing n d r) = items item closing fuel' taken (.facing n d r) :=
  (items_loop htakes hn hfuel).unique (items_loop htakes hn hfuel')

/-- The items from the cursor on, behind those taken. -/
def loop (room : Nat) (closing : UInt8) (taken : List Value) : Reader (List Value) :=
  fun c => items (valueWithin room) closing c.rest.length taken c

theorem loop_run (room : Nat) (closing : UInt8) (taken : List Value) (r : Bytes) (n d : Nat) (hn : r.length ≤ n) :
    loop room closing taken (.facing n d r) = (do
      let v ← valueWithin room
      let b ← peek
      advance
      if b == closing then return (v :: taken).reverse
      else if b == ','.toUInt8 then loop room closing (v :: taken)
      else failBehind (.expectedSeparator closing) : Reader (List Value)) (.facing n d r) := by
  have htakes := valueWithin_takes room n d
  show items (valueWithin room) closing r.length taken (.facing n d r) = _
  rw [items_fuel htakes hn (Nat.le_refl _) (Nat.le_succ _), items]
  refine bind_run_congr fun v c₁ hitem => bind_run_congr fun b c₂ hbyte => bind_run_congr fun _ c₃ hadvance => ?_
  obtain ⟨r₁, rfl, hr₁⟩ := htakes.ok hn hitem
  obtain ⟨u, rfl, hnext, hu⟩ := peek_ok (hr₁.trans hn) hbyte
  rw [advance_yields n d (by omega)] at hadvance
  cases hadvance
  rw [List.length_cons] at hu
  have hrest : items (valueWithin room) closing r.length (v :: taken) (.facing n d u) =
      loop room closing (v :: taken) (.facing n d u) :=
    items_fuel htakes (by omega) (by omega) (Nat.le_refl _)
  split
  · rfl
  · split
    · exact hrest
    · rfl

theorem allItems_run (room : Nat) (closing : UInt8) (r : Bytes) (n d : Nat) (hn : r.length ≤ n) :
    allItems (valueWithin room) closing (.facing n d r) = loop room closing [] (.facing n d r) := by
  have hfuel : n - (n - r.length) = r.length := by omega
  show items (valueWithin room) closing (n - (n - r.length)) [] _ = _
  rw [hfuel]
  rfl

theorem Loop.congr {item' : Reader Value} {c : Cursor} {result : EStateM.Result ParseError Cursor (List Value)}
    (h : Loop item closing taken c result) (hc : c = .facing n d r) (hn : r.length ≤ n) (htakes : Takes item n d)
    (hagree : ∀ r, r.length ≤ n → item (.facing n d r) = item' (.facing n d r)) :
    Loop item' closing taken c result := by
  induction h generalizing r with
  | noItem hitem =>
    subst hc
    exact .noItem (hagree r hn ▸ hitem)
  | noByte hitem hbyte =>
    subst hc
    exact .noByte (hagree r hn ▸ hitem) hbyte
  | closed hitem hbyte =>
    subst hc
    exact .closed (hagree r hn ▸ hitem) hbyte
  | stray hitem hbyte hopen hstray =>
    subst hc
    exact .stray (hagree r hn ▸ hitem) hbyte hopen hstray
  | comma hitem hbyte hopen _ ih =>
    subst hc
    obtain ⟨r₁, rfl, hr₁⟩ := htakes.ok hn hitem
    obtain ⟨u, -, hnext, hu⟩ := peek_ok (hr₁.trans hn) hbyte
    rw [List.length_cons] at hu
    exact .comma (hagree r hn ▸ hitem) hbyte hopen (ih hnext (by omega))

theorem Takes.congr {item' : Reader Value} (h : Takes item n d)
    (hagree : ∀ r, r.length ≤ n → item (.facing n d r) = item' (.facing n d r)) : Takes item' n d := by
  constructor
  · intro r v c hn hitem
    exact h.ok hn ((hagree r hn).trans hitem)
  · rw [← hagree [] (Nat.zero_le n)]
    exact h.nil

theorem items_congr {item' : Reader Value} {fuel : Nat} (htakes : Takes item n d) (hn : r.length ≤ n)
    (hfuel : r.length ≤ fuel) (hagree : ∀ r, r.length ≤ n → item (.facing n d r) = item' (.facing n d r)) :
    items item closing fuel taken (.facing n d r) = items item' closing fuel taken (.facing n d r) :=
  ((items_loop htakes hn hfuel).congr rfl hn htakes hagree).unique (items_loop (htakes.congr hagree) hn hfuel)

theorem Loop.nesting {vs : List Value} {c c' : Cursor} {result : EStateM.Result ParseError Cursor (List Value)}
    (h : Loop (valueWithin room) closing taken c result) (hc : c = .facing n d r) (hn : r.length ≤ n)
    (hresult : result = .ok vs c') (htaken : ∀ v ∈ taken, v.nesting ≤ room) : ∀ v ∈ vs, v.nesting ≤ room := by
  induction h generalizing r with
  | noItem _ => cases hresult
  | noByte _ _ => cases hresult
  | stray _ _ _ _ => cases hresult
  | closed hitem hbyte =>
    subst hc
    cases hresult
    obtain ⟨_, _, hnesting, _⟩ := valueWithin_ok hn hitem
    intro v hv
    rcases List.mem_cons.1 (List.mem_reverse.1 hv) with rfl | hv
    · exact hnesting
    · exact htaken v hv
  | comma hitem hbyte _ _ ih =>
    subst hc
    obtain ⟨r₁, rfl, hnesting, hr₁⟩ := valueWithin_ok hn hitem
    obtain ⟨u, -, hnext, hu⟩ := peek_ok (hr₁.trans hn) hbyte
    rw [List.length_cons] at hu
    exact ih hnext (by omega) hresult (List.forall_mem_cons.2 ⟨hnesting, htaken⟩)

end StateSpace.Wire.Reader
