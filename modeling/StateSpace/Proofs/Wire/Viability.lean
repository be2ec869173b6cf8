import StateSpace.Proofs.Wire.Completion

/-!
# Where texts break off

A text that is not read is reported at the first byte that nothing could follow.

* `loop_steady`, `sequenceOf_steady`, `valueWithin_steady`, `parseWithin_steady` : readers fail behind bytes that can
  be completed, and the byte they fail at cannot follow;
* `Viable w` : some text that starts with `w` is read;
* `parse_error_position` : the position of a parse error is the length of the longest viable prefix, unless an
  integer is too large, which is reported at its first byte.
-/

namespace StateSpace.Wire

variable {b : UInt8} {r r' u w ws : Bytes} {room : Nat} {v : Value}

/-- Blanks, or behind them an opening byte and the start of what it opens, which has to nest less deep. -/
def Delimited (room : Nat) (opening : UInt8) (w : Bytes) : Prop :=
  Blank w ∨ ∃ ws w' k, w = ws ++ opening :: w' ∧ Blank ws ∧ room = k + 1 ∧ Enclosable k w'

theorem Delimited.list (h : Delimited room '\x7b'.toUInt8 w) : Completable room w := by
  rcases h with hw | ⟨ws, w', k, rfl, hw, rfl, hinside⟩
  · exact completable_zero hw
  · exact hinside.list.pad hw

theorem Delimited.function {name : Bytes} (hname : IsIdentifier name = true) (hw : Blank ws)
    (h : Delimited room '['.toUInt8 w) : Completable room (name ++ ws ++ w) := by
  rw [List.append_assoc]
  rcases h with hw' | ⟨ws', w', k, rfl, hw', rfl, hinside⟩
  · exact completable_symbol hname (hw.append hw')
  · rw [← List.append_assoc ws]
    exact hinside.function hname (hw.append hw')

namespace Reader

/-! ## Sequences -/

theorem Accepts.isText (h : Accepts room r v r') (hr : r = w ++ r') (hr' : r' = ws ++ trim r') :
    IsText (w ++ ws) v ∧ v.nesting ≤ room := by
  obtain ⟨ws₁, t, ws₂, hsplit, hw₁, hd, hw₂, hroom⟩ := h.split rfl
  refine ⟨⟨ws₁, t, ws₂, ?_, hw₁, hd, hw₂⟩, hroom⟩
  rw [← List.append_left_inj (trim r'), List.append_assoc, ← hr', ← hr, hsplit]
  simp only [List.append_assoc]

/-- The loop fails behind the start of items, whatever byte is to end it. -/
theorem loop_steady (hitem : ∀ r, Steady room (valueWithin room) r (Stuck (Completable room))) (closing : UInt8)
    (taken : List Value) (r : Bytes) : Steady room (loop room closing taken) r (Stuck (Listable room)) := by
  induction hlen : r.length using Nat.strong_induction_on generalizing taken r with
  | _ k ih =>
    refine .congr (loop_run room closing taken) (.bind (valueWithin_gives room r) ?_ fun v w r₁ hr haccepts => ?_)
    · exact (hitem r).mono fun _ _ _ _ h => h.imp fun _ => Completable.listable
    refine .peek_bind (fun hnil => ?_) fun ws b u hw hr₁ htrim => ?_
    · obtain ⟨htext, hroom⟩ := haccepts.isText hr (show r₁ = r₁ ++ trim r₁ by rw [hnil, List.append_nil])
      exact .of_ne nofun (htext.listable hroom)
    obtain ⟨htext, hroom⟩ := haccepts.isText hr (htrim ▸ hr₁)
    by_cases hclosing : b = closing
    · rw [if_pos (beq_iff_eq.2 hclosing)]
      exact .advance_bind .pure
    rw [if_neg (fun h => hclosing (beq_iff_eq.1 h))]
    by_cases hcomma : b = ','.toUInt8
    · subst hcomma
      rw [if_pos (beq_self_eq_true _)]
      refine .advance_bind ((ih u.length ?_ (v :: taken) u rfl).mono fun fault w' u' _ h => ?_)
      · have hle := (valueWithin_gives room r).length_le haccepts
        rw [hr₁, List.length_append, List.length_cons] at hle
        omega
      · have hmore := h.lift (Q := Listable room) fun w' hw' => htext.listable_cons hroom hw'
        simpa only [List.append_assoc, List.cons_append, List.nil_append] using hmore
    · rw [if_neg (fun h => hcomma (beq_iff_eq.1 h))]
      refine .advance_failBehind (.of_ne nofun ?_)
      rw [List.append_nil]
      exact htext.listable hroom

theorem enclosed_steady (hitem : ∀ r, Steady room (valueWithin room) r (Stuck (Completable room))) (closing : UInt8) :
    Steady room (enclosed (valueWithin room) closing) r (Stuck (Enclosable room)) := by
  refine .peek_bind (fun hnil => .of_ne nofun (enclosable_blank (blank_of_trim_nil hnil))) fun ws b u hw _ _ => ?_
  by_cases hb : b = closing
  · rw [if_pos (beq_iff_eq.2 hb)]
    exact .advance_bind .pure
  · rw [if_neg (fun h => hb (beq_iff_eq.1 h))]
    refine (Steady.congr (allItems_run room closing) (loop_steady hitem closing [] (b :: u))).mono fun _ _ _ _ h => ?_
    exact h.lift fun _ hw' => hw'.enclosable hw

/-- Every value that nests less deep fails behind the start of a text. -/
def Breaks (room : Nat) : Prop := ∀ k < room, ∀ r, Steady k (valueWithin k) r (Stuck (Completable k))

theorem sequenceOf_steady (hitem : Breaks room) (opening closing : UInt8) :
    Steady room (sequenceOf (itemWithin room) opening closing) r (Stuck (Delimited room opening)) := by
  have hnil : trim r = [] → Stuck (Delimited room opening) .unexpectedEnd r [] := fun hnil =>
    .of_ne nofun (.inl (blank_of_trim_nil hnil))
  have hother : ∀ ws c u, Blank ws → r = ws ++ c :: u →
      Stuck (Delimited room opening) (.expected opening) ws (c :: u) := fun ws c u hw _ => .of_ne nofun (.inl hw)
  cases room with
  | zero =>
    refine .expect_bind hnil hother fun ws u hw _ => .advance_failBehind (.of_ne nofun (.inl ?_))
    rwa [List.append_nil]
  | succ k =>
    rw [itemWithin, sequenceOf_eq]
    refine .expect_bind hnil hother fun ws u hw _ => .advance_bind ?_
    refine (enclosed_steady (hitem k (Nat.lt_succ_self k)) closing).nested.mono fun fault w u' _ h => ?_
    have hopened := h.lift (p := ws ++ [opening]) (Q := Delimited (k + 1) opening) fun w hinside =>
      .inr ⟨ws, w, k, by rw [List.append_assoc, List.singleton_append], hw, rfl, hinside⟩
    rwa [List.append_assoc, List.singleton_append] at hopened

/-! ## Values -/

theorem reads (room : Nat) : Reads room := fun k _ r => valueWithin_gives k r

theorem application_steady (hitem : Breaks room) {name : Bytes} (hname : IsIdentifier name = true) :
    Steady room (do
      blanks
      if ← nextIs '['.toUInt8 then return Value.function name (← sequenceOf (itemWithin room) '['.toUInt8 ']'.toUInt8)
      else return Value.symbol name) r (fun fault w u => Stuck (Completable room) fault (name ++ w) u) := by
  refine .blanks_bind fun ws hw _ => .nextIs_bind ?_
  by_cases hhead : (trim r).head? = some '['.toUInt8
  · rw [if_pos (beq_iff_eq.2 hhead)]
    refine .bind (sequenceOf_gives (.inr rfl) (reads room)) ((sequenceOf_steady hitem _ _).mono fun fault w u _ h => ?_)
      fun _ _ _ _ _ => .pure
    have hlift := h.lift fun w hw' => hw'.function hname hw
    rwa [List.append_assoc] at hlift
  · rw [if_neg (fun h => hhead (beq_iff_eq.1 h))]
    exact .pure

theorem valueOf_steady (hitem : Breaks room) :
    Steady room (valueOf (itemWithin room)) r (Stuck (Completable room)) := by
  refine .peek_bind (fun hnil => .of_ne nofun (completable_zero (blank_of_trim_nil hnil))) fun ws b u hw _ htrim => ?_
  refine Steady.mono (C := Stuck (Completable room)) ?_ fun _ _ _ _ h => h.lift fun _ => Completable.pad hw
  by_cases hint : b = '-'.toUInt8 ∨ isDigit b = true
  · rw [if_pos (by rwa [Bool.or_eq_true, beq_iff_eq])]
    exact .bind integer_gives integer_steady fun _ _ _ _ _ => .pure
  rw [if_neg (by rwa [Bool.or_eq_true, beq_iff_eq])]
  by_cases hquote : b = '"'.toUInt8
  · subst hquote
    exact .bind string_gives string_steady fun _ _ _ _ _ => .pure
  rw [if_neg (fun h => hquote (beq_iff_eq.1 h))]
  by_cases hbrace : b = '\x7b'.toUInt8
  · subst hbrace
    refine .bind (sequenceOf_gives (.inl rfl) (reads room)) ((sequenceOf_steady hitem _ _).mono fun _ _ _ _ h => ?_)
      fun _ _ _ _ _ => .pure
    exact h.imp fun _ => Delimited.list
  rw [if_neg (fun h => hbrace (beq_iff_eq.1 h))]
  by_cases hstart : isNameStart b = true
  · rw [if_pos hstart]
    refine .bind identifier_gives identifier_steady fun name w r' hr ⟨hname, hne, hall, _⟩ => ?_
    rw [trim_self htrim, htrim] at hname
    have hw : w = name := List.append_cancel_right (hr.symm.trans hname)
    obtain ⟨b', name', rfl⟩ := List.exists_cons_of_ne_nil hne
    cases (List.cons.inj hname).1
    rw [hw]
    exact application_steady hitem (isIdentifier_iff.2 ⟨⟨_, _, rfl, hstart⟩, hall⟩)
  · rw [if_neg hstart]
    exact .fail (.of_ne nofun (completable_zero blank_nil))

theorem valueWithin_steady (room : Nat) (r : Bytes) : Steady room (valueWithin room) r (Stuck (Completable room)) := by
  induction room using Nat.strong_induction_on generalizing r with
  | _ room ih =>
    rw [valueWithin_eq]
    exact valueOf_steady ih

/-! ## Whole texts -/

theorem itemAt_eq (d : Nat) : itemAt d = itemWithin (maxDepth - d) := by
  unfold itemAt itemWithin
  rfl

theorem value_facing (n d : Nat) (r : Bytes) :
    value (.facing n d r) = valueWithin (maxDepth - d) (.facing n d r) := by
  rw [valueWithin_eq, ← itemAt_eq]
  rfl

/-- One value that nests at most so deep, with nothing but blanks behind it. -/
def parseWithin (room : Nat) : Reader Value := do
  let v ← valueWithin room
  blanks
  if (← get).atEnd then return v else fail .trailing

theorem parse_facing (n d : Nat) (r : Bytes) :
    Reader.parse (.facing n d r) = parseWithin (maxDepth - d) (.facing n d r) := by
  show EStateM.bind value _ _ = EStateM.bind (valueWithin _) _ _
  rw [EStateM.bind, EStateM.bind, value_facing]

theorem parseWithin_steady (room : Nat) (r : Bytes) : Steady room (parseWithin room) r (Stuck (Completable room)) := by
  refine .bind (valueWithin_gives room r) (valueWithin_steady room r) fun v w r₁ hr haccepts => ?_
  refine .blanks_bind fun ws hw hr₁ => ?_
  obtain ⟨htext, hroom⟩ := haccepts.isText hr hr₁
  cases trim r₁ with
  | nil => exact .yields (w := []) rfl (fun _ _ _ => rfl) fun s hs => absurd hs not_sameNext_nil
  | cons b u =>
    refine .fails List.suffix_rfl (fun _ _ _ => rfl) (fun s hs n d _ => ?_) (.of_ne nofun ?_)
    · obtain ⟨u', rfl⟩ := hs.cons
      exact ⟨_, _, rfl⟩
    · rw [List.append_nil]
      exact ⟨[], v, by rwa [List.append_nil], hroom⟩

end Reader

/-- Some text that starts with these bytes is read. -/
def Viable (w : Bytes) : Prop := ∃ ext v, parse (w ++ ext) = .ok v

theorem viable_iff : Viable w ↔ Completable maxDepth w := by
  constructor
  · rintro ⟨ext, v, h⟩
    exact ⟨ext, v, parse_eq_ok_iff.1 h⟩
  · rintro ⟨ext, v, h⟩
    exact ⟨ext, v, parse_eq_ok_iff.2 h⟩

theorem Viable.of_append {t : Bytes} (h : Viable (w ++ t)) : Viable w := by
  obtain ⟨ext, v, h⟩ := h
  exact ⟨t ++ ext, v, by rwa [← List.append_assoc]⟩

theorem parse_eq (text : Bytes) : parse text =
    match Reader.parseWithin maxDepth (.facing text.length 0 text) with
    | .ok v _ => .ok v
    | .error e _ => .error e := by
  rw [parse, Cursor.start_eq, Reader.parse_facing]
  rfl

theorem parse_eq_error {text : Bytes} {e : ParseError} (h : parse text = .error e) :
    ∃ c, Reader.parseWithin maxDepth (.facing text.length 0 text) = .error e c := by
  rw [parse_eq] at h
  cases hrun : Reader.parseWithin maxDepth (.facing text.length 0 text) with
  | ok v c =>
    rw [hrun] at h
    cases h
  | error e' c =>
    rw [hrun] at h
    cases h
    exact ⟨c, rfl⟩

theorem parse_of_refuses {text : Bytes} (h : Reader.Refuses (Reader.parseWithin maxDepth) text) (v : Value) :
    parse text ≠ .ok v := by
  obtain ⟨e, c, hrun⟩ := h text.length 0 (Nat.le_refl _)
  rw [parse_eq, hrun]
  nofun

/-- **Where a parse error points**: at the first byte that nothing could follow, or at the start of an integer that is
too large. -/
theorem parse_error_position (text : Bytes) (e : ParseError) (h : parse text = .error e) :
    e.position ≤ text.length ∧ Viable (text.take e.position) ∧
    (e.fault ≠ .integerTooLarge → ∀ k ≤ text.length, Viable (text.take k) ↔ k ≤ e.position) ∧
    (e.fault = .integerTooLarge → Oversized (text.drop e.position) ∧
      ∀ t v, Denotes t v → v.nesting = 0 → Viable (text.take e.position ++ t)) := by
  obtain ⟨c, hrun⟩ := parse_eq_error h
  have hsteady := Reader.parseWithin_steady maxDepth text
  obtain ⟨-, w, u, rfl, hpos, ⟨hw, hlarge⟩, hrefuses⟩ := hsteady.error (Nat.le_refl _) hrun
  have hposition : e.position = w.length := by
    rw [hpos, List.length_append]
    omega
  have hviable := viable_iff.2 hw
  rw [hposition, List.take_left, List.drop_left]
  refine ⟨by rw [List.length_append]; omega, hviable, fun hne k hk => ?_, fun hfault => ?_⟩
  · constructor
    · rintro ⟨ext, v, hok⟩
      by_contra hlt
      -- a longer prefix agrees with the text up to the byte at the position
      obtain ⟨b, u', rfl⟩ : ∃ b u', u = b :: u' := by
        apply List.exists_cons_of_ne_nil
        rintro rfl
        rw [List.append_nil] at hk
        omega
      obtain ⟨j, hj⟩ : ∃ j, k - w.length = j + 1 := ⟨k - w.length - 1, by omega⟩
      rw [List.take_append, List.take_of_length_le (by omega), hj, List.take_succ_cons, List.append_assoc] at hok
      exact parse_of_refuses (hrefuses hne _ ⟨b, rfl, rfl⟩) v hok
    · intro hle
      rw [List.take_append_of_le_length hle]
      rw [← List.take_append_drop k w] at hviable
      exact hviable.of_append
  · obtain ⟨hu, hscalar⟩ := hlarge hfault
    exact ⟨hu, fun t v ht hv => viable_iff.2 (hscalar t v ht hv)⟩

/-- Two items without a comma between them, inside two lists, and an integer one beyond the least. -/
theorem parse_error_position_broken :
    (parse (Bytes.ofString "\x7b1, \x7b2 3\x7d\x7d") = .error ⟨.expectedSeparator '\x7d'.toUInt8, 7⟩ ∧
      Viable (Bytes.ofString "\x7b1, \x7b2 ") ∧ ¬Viable (Bytes.ofString "\x7b1, \x7b2 3")) ∧
    parse (Bytes.ofString "f[ -9223372036854775809]") = .error ⟨.integerTooLarge, 3⟩ ∧
      Oversized (Bytes.ofString "-9223372036854775809]") ∧ Viable (Bytes.ofString "f[ \"x\"") := by
  have hseparator :
      parse (Bytes.ofString "\x7b1, \x7b2 3\x7d\x7d") = .error ⟨.expectedSeparator '\x7d'.toUInt8, 7⟩ := by
    decide +kernel
  have hlarge : parse (Bytes.ofString "f[ -9223372036854775809]") = .error ⟨.integerTooLarge, 3⟩ := by decide +kernel
  obtain ⟨-, hviable, hlongest, -⟩ := parse_error_position _ _ hseparator
  obtain ⟨-, -, -, hplace⟩ := parse_error_position _ _ hlarge
  obtain ⟨hover, hscalar⟩ := hplace rfl
  refine ⟨⟨hseparator, hviable, fun hlonger => ?_⟩, hlarge, hover, ?_⟩
  · exact absurd ((hlongest nofun 8 (by decide)).1 hlonger) (by decide)
  · exact hscalar (Bytes.ofString "\"x\"") (.string (Bytes.ofString "x"))
      (.string (.plain (by decide) (by decide) .nil)) rfl

end StateSpace.Wire
