import StateSpace.Proofs.Wire.Loop

/-!
# Completions

Bytes that break off in the middle of a text, and how the readers of scalars fail there.

* `Completable`, `Listable`, `Enclosable` : bytes that start the text of a value, of items and commas, and of what
  stands between delimiters;
* `Stuck P fault w u` : a failure behind bytes `w` that can be completed, in the sense `P`, and in front of bytes `u`;
* `integer_steady`, `string_steady`, `identifier_steady` : the scalars fail so.
-/

namespace StateSpace.Wire

variable {b : UInt8} {r s t u w ws : Bytes} {room : Nat} {v : Value} {fault : ParseFault} {P Q : Bytes → Prop}

/-! ## Completions -/

/-- The start of a text whose value nests at most so deep. -/
def Completable (room : Nat) (w : Bytes) : Prop := ∃ ext v, IsText (w ++ ext) v ∧ v.nesting ≤ room

/-- The start of one or more values, with commas between them, that nest at most so deep. -/
def Listable (room : Nat) (w : Bytes) : Prop := ∃ ext vs, Sequence (w ++ ext) vs ∧ Value.nestingAll vs ≤ room

/-- The start of what stands between delimiters and nests at most so deep. -/
def Enclosable (room : Nat) (w : Bytes) : Prop := ∃ ext vs, Items (w ++ ext) vs ∧ Value.nestingAll vs ≤ room

theorem IsText.pad (hw : Blank ws) (h : IsText t v) : IsText (ws ++ t) v := by
  obtain ⟨ws', t, ws'', rfl, hw', hd, hw''⟩ := h
  exact ⟨ws ++ ws', t, ws'', by rw [List.append_assoc], hw.append hw', hd, hw''⟩

theorem Denotes.isText (h : Denotes t v) : IsText t v :=
  ⟨[], t, [], by rw [List.append_nil, List.nil_append], blank_nil, h, blank_nil⟩

theorem IsText.sequence (h : IsText t v) : Sequence t [v] := by
  obtain ⟨ws, t, ws', rfl, hw, hd, hw'⟩ := h
  exact .one hw hd hw'

theorem IsText.sequence_cons {vs : List Value} (h : IsText t v) (hs : Sequence u vs) :
    Sequence (t ++ ','.toUInt8 :: u) (v :: vs) := by
  obtain ⟨ws, t, ws', rfl, hw, hd, hw'⟩ := h
  have hmore := Sequence.more hw hd hw' hs
  rwa [← List.append_assoc, ← List.append_assoc, List.append_assoc ws] at hmore

theorem nestingAll_singleton : Value.nestingAll [v] = v.nesting := by
  rw [Value.nestingAll, Value.nestingAll, Nat.max_eq_left (Nat.zero_le _)]

theorem Completable.pad (hw : Blank ws) (h : Completable room w) : Completable room (ws ++ w) := by
  obtain ⟨ext, v, htext, hroom⟩ := h
  exact ⟨ext, v, by rw [List.append_assoc]; exact htext.pad hw, hroom⟩

theorem isDigit_zero : ∀ b ∈ ['0'.toUInt8], isDigit b = true := List.forall_mem_singleton.2 (by decide)

theorem completable_zero (hw : Blank ws) : Completable room ws := by
  have hzero : IsNumeral ['0'.toUInt8] 0 := .plain (List.cons_ne_nil _ _) isDigit_zero rfl
  exact ⟨['0'.toUInt8], .integer 0, (Denotes.integer hzero).isText.pad hw, Nat.zero_le room⟩

theorem completable_minus (hw : Blank ws) : Completable room (ws ++ ['-'.toUInt8]) := by
  have hzero : IsNumeral ['-'.toUInt8, '0'.toUInt8] 0 := .minus (List.cons_ne_nil _ _) isDigit_zero rfl
  exact Completable.pad hw ⟨['0'.toUInt8], .integer 0, (Denotes.integer hzero).isText, Nat.zero_le room⟩

theorem Completable.listable (h : Completable room w) : Listable room w := by
  obtain ⟨ext, v, htext, hroom⟩ := h
  exact ⟨ext, [v], htext.sequence, by rwa [nestingAll_singleton]⟩

theorem IsText.listable (h : IsText t v) (hroom : v.nesting ≤ room) : Listable room t :=
  Completable.listable ⟨[], v, by rwa [List.append_nil], hroom⟩

theorem IsText.listable_cons (h : IsText t v) (hroom : v.nesting ≤ room) (hw : Listable room w) :
    Listable room (t ++ [','.toUInt8] ++ w) := by
  obtain ⟨ext, vs, hs, hvs⟩ := hw
  refine ⟨ext, v :: vs, ?_, ?_⟩
  · rw [List.append_assoc, List.append_assoc]
    exact h.sequence_cons hs
  · rw [Value.nestingAll]
    exact Nat.max_le.2 ⟨hroom, hvs⟩

theorem Listable.enclosable (hw : Blank ws) (h : Listable room w) : Enclosable room (ws ++ w) := by
  obtain ⟨ext, vs, hs, hroom⟩ := h
  exact ⟨ext, vs, by rw [List.append_assoc]; exact .some (hs.pad hw), hroom⟩

theorem enclosable_blank (hw : Blank ws) : Enclosable room ws :=
  ⟨[], [], by rw [List.append_nil]; exact .none hw, Nat.zero_le room⟩

theorem Enclosable.list (h : Enclosable room w) : Completable (room + 1) ('\x7b'.toUInt8 :: w) := by
  obtain ⟨ext, vs, hitems, hroom⟩ := h
  refine ⟨ext ++ ['\x7d'.toUInt8], .list vs, ?_, ?_⟩
  · rw [List.cons_append, ← List.append_assoc]
    exact (Denotes.list hitems).isText
  · rw [Value.nesting]
    omega

theorem Enclosable.function {name : Bytes} (hname : IsIdentifier name = true) (hw : Blank ws) (h : Enclosable room w) :
    Completable (room + 1) (name ++ (ws ++ '['.toUInt8 :: w)) := by
  obtain ⟨ext, vs, hitems, hroom⟩ := h
  refine ⟨ext ++ [']'.toUInt8], .function name vs, ?_, ?_⟩
  · have htext := (Denotes.function hname hw hitems).isText
    simp only [List.append_assoc, List.cons_append] at htext ⊢
    exact htext
  · rw [Value.nesting]
    omega

theorem completable_symbol {name : Bytes} (hname : IsIdentifier name = true) (hw : Blank ws) :
    Completable room (name ++ ws) := by
  refine ⟨[], .symbol name, ⟨[], name, ws, ?_, blank_nil, .symbol hname, hw⟩, Nat.zero_le room⟩
  rw [List.append_nil, List.nil_append]

/-! ## Failures -/

/-- The bytes start with an integer, as far as its digits go, that is beyond the words. -/
inductive Oversized : Bytes → Prop
  | plain {ds rest : Bytes} (hne : ds ≠ []) (hd : ∀ b ∈ ds, isDigit b = true) (hrest : Clear isDigit rest)
      (hv : 2 ^ 63 ≤ numeral 0 ds) : Oversized (ds ++ rest)
  | minus {ds rest : Bytes} (hne : ds ≠ []) (hd : ∀ b ∈ ds, isDigit b = true) (hrest : Clear isDigit rest)
      (hv : 2 ^ 63 < numeral 0 ds) : Oversized ('-'.toUInt8 :: (ds ++ rest))

/-- A failure between the bytes `w` and `u`: those before it can be completed. If an integer is too large, it is the one
in front of which the failure is reported, and every scalar could stand there. -/
def Stuck (P : Bytes → Prop) (fault : ParseFault) (w u : Bytes) : Prop :=
  P w ∧ (fault = .integerTooLarge → Oversized u ∧ ∀ t v, Denotes t v → v.nesting = 0 → P (w ++ t))

theorem Stuck.lift {p : Bytes} (h : Stuck P fault w u) (hPQ : ∀ w, P w → Q (p ++ w)) : Stuck Q fault (p ++ w) u := by
  refine ⟨hPQ w h.1, fun hfault => ?_⟩
  obtain ⟨hu, hscalar⟩ := h.2 hfault
  refine ⟨hu, fun t v ht hv => ?_⟩
  rw [List.append_assoc]
  exact hPQ _ (hscalar t v ht hv)

theorem Stuck.imp (h : Stuck P fault w u) (hPQ : ∀ w, P w → Q w) : Stuck Q fault w u := by
  show Stuck Q fault ([] ++ w) u
  exact h.lift hPQ

theorem Stuck.of_ne (hfault : fault ≠ .integerTooLarge) (hw : P w) : Stuck P fault w u :=
  ⟨hw, fun h => absurd h hfault⟩

theorem blank_of_trim_nil (h : trim r = []) : Blank r :=
  blank_of_append_trim (by rw [h, List.append_nil])

namespace Reader

/-! ## Integers -/

theorem countDown_suffix {ds untaken : Bytes} {value : Int64} (h : countDown value ds = .error untaken) :
    untaken <:+ ds := by
  induction ds generalizing value with
  | nil => cases h
  | cons b ds ih =>
    rw [countDown] at h
    split at h
    · cases h
      exact List.suffix_rfl
    · exact (ih h).trans (List.suffix_cons b ds)

theorem magnitude_error {start n d : Nat} {negative : Bool} {e : ParseError} {c : Cursor} (hn : r.length ≤ n)
    (h : magnitude start negative (.facing n d r) = .error e c) :
    (Clear isDigit r ∧ e = ⟨.expectedDigits, n - r.length⟩ ∧ c = .facing n d r) ∨
      (∃ ds rest, r = ds ++ rest ∧ ds ≠ [] ∧ (∀ b ∈ ds, isDigit b = true) ∧ Clear isDigit rest ∧
        ∀ v : Int64, v.toInt ≠ if negative then -(numeral 0 ds : Int) else numeral 0 ds) ∧
      e = ⟨.integerTooLarge, start⟩ ∧ ∃ r', c = .facing n d r' ∧ r' <:+ r := by
  obtain ⟨hr, hd, hclear⟩ : r = r.takeWhile isDigit ++ r.dropWhile isDigit ∧ _ ∧ _ := span_eq_iff.1 ⟨rfl, rfl⟩
  by_cases hne : r.takeWhile isDigit = []
  · refine .inl ⟨?_, ?_⟩
    · rw [hne, List.nil_append] at hr
      rw [hr]
      exact hclear
    · unfold magnitude at h
      change (ite ((r.takeWhile isDigit).isEmpty = true) _ _ : Reader Int64) _ = _ at h
      rw [if_pos (List.isEmpty_iff.2 hne)] at h
      cases h
      exact ⟨rfl, rfl⟩
  refine .inr ⟨⟨_, _, hr, hne, hd, hclear, fun v hv => ?_⟩, ?_⟩
  · -- a word with that value would have been returned
    have hok : magnitude start negative (.facing n d r) = .ok v _ :=
      (magnitude_run hn).2 ⟨⟨hne, (countDown_signed hd negative v).2 hv⟩, rfl⟩
    rw [hok] at h
    cases h
  unfold magnitude at h
  change (ite ((r.takeWhile isDigit).isEmpty = true) _ _ : Reader Int64) _ = _ at h
  rw [if_neg (fun h => hne (List.isEmpty_iff.1 h))] at h
  cases hcount : countDown 0 (r.takeWhile isDigit) with
  | error untaken =>
    rw [show countDown 0 ((Cursor.facing n d r).rest.takeWhile isDigit) = _ from hcount] at h
    cases h
    have hsuffix := countDown_suffix hcount
    refine ⟨rfl, untaken ++ r.dropWhile isDigit, ?_, ?_⟩
    · have hlen := congrArg List.length hr
      have hle := hsuffix.length_le
      rw [List.length_append] at hlen
      have hpos : n - (untaken ++ r.dropWhile isDigit).length =
          n - r.length + ((r.takeWhile isDigit).length - untaken.length) := by
        rw [List.length_append]
        omega
      show _ = Cursor.mk n (untaken ++ r.dropWhile isDigit) (n - (untaken ++ r.dropWhile isDigit).length) d
      rw [hpos]
      rfl
    · obtain ⟨taken, htaken⟩ := hsuffix
      exact ⟨taken, by rw [← List.append_assoc, htaken, ← hr]⟩
  | ok value =>
    rw [show countDown 0 ((Cursor.facing n d r).rest.takeWhile isDigit) = _ from hcount] at h
    change (ite (negative = true) (pure value) (ite ((value == Int64.minValue) = true) (throw _) (pure (-value))) :
      Reader Int64) ((Cursor.facing n d r).skip isDigit) = _ at h
    rw [Cursor.skip_facing hn] at h
    split at h
    · cases h
    · split at h
      · cases h
        exact ⟨rfl, _, rfl, List.dropWhile_suffix isDigit⟩
      · cases h

theorem integer_run_minus {n d : Nat} (htrim : trim r = '-'.toUInt8 :: u) (hn : r.length ≤ n) :
    integer (.facing n d r) = magnitude (n - ('-'.toUInt8 :: u).length) true (.facing n d u) := by
  have hlen := length_trim_le r
  rw [htrim] at hlen
  have hblanks : blanks (.facing n d r) = .ok () (.facing n d ('-'.toUInt8 :: u)) :=
    blanks_gives.yields ⟨rfl, htrim.symm⟩ n d hn
  have hget : (get : Reader Cursor) (.facing n d ('-'.toUInt8 :: u)) = .ok _ _ := rfl
  have hnext : nextIs '-'.toUInt8 (.facing n d ('-'.toUInt8 :: u)) = .ok true _ := rfl
  rw [integer_eq, bind_run hblanks, bind_run hget, bind_run hnext]
  exact bind_run (advance_yields n d (hlen.trans hn))

theorem integer_run_plain {n d : Nat} (hhead : (trim r).head? ≠ some '-'.toUInt8) (hn : r.length ≤ n) :
    integer (.facing n d r) = magnitude (n - (trim r).length) false (.facing n d (trim r)) := by
  have hblanks : blanks (.facing n d r) = .ok () (.facing n d (trim r)) := blanks_gives.yields ⟨rfl, rfl⟩ n d hn
  have hget : (get : Reader Cursor) (.facing n d (trim r)) = .ok _ _ := rfl
  have hnext : nextIs '-'.toUInt8 (.facing n d (trim r)) = .ok false (.facing n d (trim r)) :=
    nextIs_gives.yields ⟨(beq_eq_false_iff_ne.2 hhead).symm, rfl⟩ n d ((length_trim_le r).trans hn)
  rw [integer_eq, bind_run hblanks, bind_run hget, bind_run hnext]
  rfl

theorem no_digits {ds r' : Bytes} (hs : Clear isDigit s) (hd : ∀ b ∈ ds, isDigit b = true) (h : s = ds ++ r') :
    ds = [] := by
  cases ds with
  | nil => rfl
  | cons b ds =>
    rw [h] at hs
    exact absurd (hd b List.mem_cons_self) (by rw [clear_cons.1 hs]; decide)

theorem integer_refuses_minus (hw : Blank ws) (hs : Clear isDigit s) :
    Refuses integer (ws ++ '-'.toUInt8 :: s) := by
  refine integer_gives.refuses ?_
  rintro v r' ⟨t, ht, hnum, -⟩
  rw [trim_behind hw (by decide)] at ht
  cases hnum with
  | plain hne hd _ =>
    obtain ⟨b, ds, rfl⟩ := List.exists_cons_of_ne_nil hne
    cases (List.cons.inj ht).1
    exact absurd (hd _ List.mem_cons_self) (by decide)
  | minus hne hd _ => exact hne (no_digits hs hd (List.cons.inj ht).2)

theorem integer_refuses_plain (htrim : trim (ws ++ s) = s) (hs : Clear isDigit s) (hhead : s.head? ≠ some '-'.toUInt8) :
    Refuses integer (ws ++ s) := by
  refine integer_gives.refuses ?_
  rintro v r' ⟨t, ht, hnum, -⟩
  rw [htrim] at ht
  cases hnum with
  | plain hne hd _ => exact hne (no_digits hs hd ht)
  | minus hne hd _ =>
    rw [ht] at hhead
    exact hhead rfl

theorem beyond_words {k : Nat} {negative : Bool} (h : ∀ v : Int64, v.toInt ≠ if negative then -(k : Int) else k) :
    if negative then 2 ^ 63 < k else 2 ^ 63 ≤ k := by
  cases negative with
  | true =>
    show 2 ^ 63 < k
    by_contra hle
    refine h (Int64.ofInt (-(k : Int))) ?_
    rw [if_pos rfl, Int64.toInt_ofInt_of_le (by omega) (by omega)]
  | false =>
    show 2 ^ 63 ≤ k
    by_contra hlt
    refine h (Int64.ofInt k) ?_
    rw [if_neg Bool.false_ne_true, Int64.toInt_ofInt_of_le (by omega) (by omega)]

theorem integer_steady : Steady room integer r (Stuck (Completable room)) := by
  obtain ⟨ws, hw, hr⟩ := exists_blank r
  constructor
  · intro n d v c hn h
    obtain ⟨r', ⟨t, htrim, hnum, hclear⟩, rfl⟩ := (integer_gives.run hn v c).1 h
    refine ⟨ws ++ t, r', by rw [List.append_assoc, ← htrim, ← hr], rfl, fun s hs => ?_⟩
    refine integer_gives.yields ⟨t, ?_, hnum, hs.clear hclear⟩
    rw [List.append_assoc, trim_append hw]
    exact (Denotes.integer hnum).trim_append
  · intro n d e c hn h
    have hscalar : ∀ t v, Denotes t v → v.nesting = 0 → Completable room (ws ++ t) := fun t v ht hv =>
      Completable.pad hw ⟨[], v, by rw [List.append_nil]; exact ht.isText, by omega⟩
    have hlen := length_trim_le r
    by_cases hhead : (trim r).head? = some '-'.toUInt8
    · obtain ⟨u, hu⟩ := List.head?_eq_some_iff.1 hhead
      rw [integer_run_minus hu hn] at h
      rw [hu] at hr hlen
      rw [List.length_cons] at hlen
      have hsign : r = ws ++ ['-'.toUInt8] ++ u := by rw [hr, List.append_assoc, List.singleton_append]
      have hu' : u <:+ r := ⟨_, hsign.symm⟩
      rcases magnitude_error (by omega) h with
        ⟨hclear, rfl, rfl⟩ | ⟨⟨ds, rest, rfl, hne, hd, hrest, hv⟩, rfl, r', rfl, hr'⟩
      · refine ⟨stays hu', ws ++ ['-'.toUInt8], u, hsign, rfl, .of_ne nofun (completable_minus hw), fun _ s hs => ?_⟩
        rw [List.append_assoc, List.singleton_append]
        exact integer_refuses_minus hw (hs.clear hclear)
      · exact ⟨stays (hr'.trans hu'), ws, _, hr, rfl,
          ⟨completable_zero hw, fun _ => ⟨.minus hne hd hrest (beyond_words hv), hscalar⟩⟩, fun h => absurd rfl h⟩
    · rw [integer_run_plain hhead hn] at h
      have hu' : trim r <:+ r := List.dropWhile_suffix isBlank
      rcases magnitude_error (by omega) h with
        ⟨hclear, rfl, rfl⟩ | ⟨⟨ds, rest, htrim, hne, hd, hrest, hv⟩, rfl, r', rfl, hr'⟩
      · refine ⟨stays hu', ws, trim r, hr, rfl, .of_ne nofun (completable_zero hw), fun _ s hs => ?_⟩
        refine integer_refuses_plain (trim_of_sameNext hw hs) (hs.clear hclear) ?_
        obtain ⟨b, hb, hb'⟩ := hs
        rwa [hb', ← hb]
      · have hlarge : Oversized (trim r) := by
          rw [htrim]
          exact .plain hne hd hrest (beyond_words hv)
        exact ⟨stays (hr'.trans hu'), ws, trim r, hr, rfl, ⟨completable_zero hw, fun _ => ⟨hlarge, hscalar⟩⟩,
          fun h => absurd rfl h⟩

/-! ## Strings and names -/

/-- A string breaks off at the end of the text, behind a backslash or not, or at a byte that no backslash comes
before. -/
theorem stringBody_error {c c' : Cursor} {pos : Nat} {content : Bytes} {e : ParseError}
    (h : stringBody c pos content r = .error e c') : ∃ w u r', r = w ++ u ∧ e.position = pos + w.length ∧
      e.fault ≠ .integerTooLarge ∧ (∃ ext s, IsBody (w ++ ext) s) ∧ r' <:+ r ∧
      c' = { c with rest := r', pos := pos + (r.length - r'.length) } ∧
      ∀ s, SameNext u s → ∀ c pos content, ∃ e c', stringBody c pos content (w ++ s) = .error e c' := by
  fun_induction stringBody c pos content r with
  | case1 pos content =>
    cases h
    refine ⟨[], [], [], rfl, rfl, ?_, ⟨[], [], .nil⟩, List.suffix_rfl, rfl, fun s hs => absurd hs not_sameNext_nil⟩
    intro hfault
    cases hfault
  | case2 pos content b rest hb => cases h
  | case3 pos content b hq hb =>
    rw [beq_iff_eq] at hb
    cases h
    subst hb
    refine ⟨['\\'.toUInt8], [], [], rfl, rfl, ?_, ⟨['n'.toUInt8], ['\n'.toUInt8], .escaped (by decide) .nil⟩,
      List.nil_suffix, rfl, fun s hs => absurd hs not_sameNext_nil⟩
    intro hfault
    cases hfault
  | case4 pos content b hq hb e rest x he ih =>
    obtain ⟨w, u, r', rfl, hpos, hfault, ⟨ext, s, hbody⟩, hr', rfl, hrefuses⟩ := ih h
    rw [beq_iff_eq] at hb
    subst hb
    have hle := hr'.length_le
    refine ⟨'\\'.toUInt8 :: e :: w, u, r', rfl, ?_, hfault, ⟨ext, x :: s, .escaped he hbody⟩, ?_, ?_,
      fun s hs c pos content => ?_⟩
    · simp only [List.length_cons]
      omega
    · exact hr'.trans ((List.suffix_cons _ _).trans (List.suffix_cons _ _))
    · have hlen : pos + 2 + ((w ++ u).length - r'.length) =
          pos + (('\\'.toUInt8 :: e :: (w ++ u)).length - r'.length) := by
        simp only [List.length_cons]
        omega
      rw [hlen]
    · obtain ⟨e', c', hs'⟩ := hrefuses s hs c (pos + 2) (x :: content)
      refine ⟨e', c', ?_⟩
      rw [← hs', List.cons_append, List.cons_append, stringBody, if_neg hq, if_pos (by decide)]
      simp only [he]
  | case5 pos content b hq hb e rest he =>
    rw [beq_iff_eq] at hb
    cases h
    subst hb
    refine ⟨['\\'.toUInt8], e :: rest, rest, rfl, rfl, ?_, ⟨['n'.toUInt8], ['\n'.toUInt8], .escaped (by decide) .nil⟩,
      (List.suffix_cons _ _).trans (List.suffix_cons _ _), ?_, fun s hs c pos content => ?_⟩
    · intro hfault
      cases hfault
    · have hlen : pos + 2 = pos + (('\\'.toUInt8 :: e :: rest).length - rest.length) := by
        simp only [List.length_cons]
        omega
      rw [← hlen]
    · obtain ⟨u', rfl⟩ := hs.cons
      have hrun : stringBody c pos content ('\\'.toUInt8 :: e :: u') =
          .error ⟨.unknownEscape e, pos + 1⟩ { c with rest := u', pos := pos + 2 } := by
        rw [stringBody, if_neg hq, if_pos (by decide)]
        simp only [he]
      exact ⟨_, _, hrun⟩
  | case6 pos content b rest hq hb ih =>
    obtain ⟨w, u, r', rfl, hpos, hfault, ⟨ext, s, hbody⟩, hr', rfl, hrefuses⟩ := ih h
    have hle := hr'.length_le
    refine ⟨b :: w, u, r', rfl, ?_, hfault,
      ⟨ext, b :: s, .plain (fun h => hq (beq_iff_eq.2 h)) (fun h => hb (beq_iff_eq.2 h)) hbody⟩,
      hr'.trans (List.suffix_cons _ _), ?_, fun s hs c pos content => ?_⟩
    · rw [List.length_cons]
      omega
    · have hlen : pos + 1 + ((w ++ u).length - r'.length) = pos + ((b :: (w ++ u)).length - r'.length) := by
        rw [List.length_cons]
        omega
      rw [hlen]
    · obtain ⟨e', c', hs'⟩ := hrefuses s hs c (pos + 1) (b :: content)
      refine ⟨e', c', ?_⟩
      rw [List.cons_append, stringBody.eq_def]
      dsimp only
      rw [if_neg hq, if_neg hb, hs']

theorem completable_string {ext : Bytes} (hw : Blank ws) (h : IsBody (w ++ ext) s) :
    Completable room (ws ++ '"'.toUInt8 :: w) := by
  refine Completable.pad hw ⟨ext ++ ['"'.toUInt8], .string s, ?_, Nat.zero_le room⟩
  rw [List.cons_append, ← List.append_assoc]
  exact (Denotes.string h).isText

theorem string_steady : Steady room string r (Stuck (Completable room)) := by
  refine .expect_bind (fun hnil => .of_ne nofun (completable_zero (blank_of_trim_nil hnil)))
    (fun ws _ _ hw _ => .of_ne nofun (completable_zero hw)) fun ws u hw _ => .advance_bind ?_
  constructor
  · intro n d s c hn h
    obtain ⟨body, s', r', rfl, hbody, hs', rfl⟩ := stringBody_eq_ok.1 h
    refine ⟨body ++ ['"'.toUInt8], r', by rw [List.append_assoc, List.singleton_append], facing_behind hn,
      fun u _ n d hn => ?_⟩
    rw [List.append_assoc, List.singleton_append] at hn ⊢
    rw [← facing_behind hn]
    exact stringBody_eq_ok.2 ⟨body, s', u, rfl, hbody, hs', rfl⟩
  · intro n d e c hn h
    obtain ⟨w, u, r', rfl, hpos, hfault, ⟨ext, s, hbody⟩, hr', rfl, hrefuses⟩ := stringBody_error h
    have hle : r'.length ≤ (w ++ u).length := hr'.length_le
    have hfacing : n - (w ++ u).length + ((w ++ u).length - r'.length) = n - r'.length := by omega
    show (∃ d' r'', Cursor.mk n r' (n - (w ++ u).length + ((w ++ u).length - r'.length)) d = _ ∧ _) ∧ _
    rw [hfacing]
    refine ⟨stays hr', w, u, rfl, ?_, .of_ne hfault (completable_string hw hbody),
      fun _ s hs n d hn => hrefuses s hs _ _ _⟩
    rw [hpos]
    show n - (w ++ u).length + w.length = n - u.length
    rw [List.length_append] at hn ⊢
    omega

def nameBytes : Reader Bytes := do
  let name := (← get).rest.takeWhile isNameByte
  if name.isEmpty then fail .expectedIdentifier
  else
    modify (Cursor.skip isNameByte)
    return name

theorem nameBytes_error (n d : Nat) (hs : s.takeWhile isNameByte = []) :
    nameBytes (.facing n d s) = .error ⟨.expectedIdentifier, n - s.length⟩ (.facing n d s) := by
  show (ite ((s.takeWhile isNameByte).isEmpty = true) _ _ : Reader Bytes) _ = _
  rw [if_pos (List.isEmpty_iff.2 hs)]
  rfl

theorem nameBytes_yields {name : Bytes} (hne : name ≠ []) (hname : ∀ b ∈ name, isNameByte b = true)
    (hs : Clear isNameByte s) : Yields nameBytes (name ++ s) name s := by
  intro n d hn
  obtain ⟨htake, hdrop⟩ := span_eq_iff.2 ⟨rfl, hname, hs⟩
  show (ite (((name ++ s).takeWhile isNameByte).isEmpty = true) _ _ : Reader Bytes) _ = _
  rw [if_neg (by rw [htake, List.isEmpty_iff]; exact hne)]
  show EStateM.Result.ok ((name ++ s).takeWhile isNameByte) ((Cursor.facing n d (name ++ s)).skip isNameByte) = _
  rw [htake, Cursor.skip_facing hn, hdrop]

theorem identifier_steady : Steady room identifier r (Stuck (Completable room)) := by
  show Steady room (blanks >>= fun _ => nameBytes) r _
  refine .blanks_bind fun ws hw _ => ?_
  obtain ⟨hr, hall, hclear⟩ : trim r = (trim r).takeWhile isNameByte ++ _ ∧ _ ∧ _ := span_eq_iff.1 ⟨rfl, rfl⟩
  by_cases hne : (trim r).takeWhile isNameByte = []
  · refine .fails List.suffix_rfl (fun n d _ => nameBytes_error n d hne) (fun s hs n d _ => ?_) ?_
    · rw [hne, List.nil_append] at hr
      rw [← hr] at hclear
      exact ⟨_, _, nameBytes_error n d (takeWhile_of_clear (hs.clear hclear))⟩
    · rw [List.append_nil]
      exact .of_ne nofun (completable_zero hw)
  · refine .yields hr ?_ fun s hs => nameBytes_yields hne hall (hs.clear hclear)
    have hyields := nameBytes_yields hne hall hclear
    rwa [← hr] at hyields

end Reader

end StateSpace.Wire
