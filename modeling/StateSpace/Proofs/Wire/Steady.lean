import StateSpace.Proofs.Wire.Parse

/-!
# Where readers stop

A reader goes through its bytes once, from the first one on, and does not look beyond the byte it stops at.

* `SameNext s s'` : two rests with the same next byte, which a reader that has not gone further cannot tell apart;
* `Yields x r a r'`, `Refuses x r` : with the bytes `r` left, `x` returns `a` and leaves `r'`, or fails;
* `Steady room x r C` : what `x` did with the bytes `r` left, it does with all bytes that agree up to where it stopped;
  `C` says of a failure between which bytes it is reported;
* `Steady.bind`, `Steady.peek_bind`, `Steady.expect_bind`, `Steady.nested` : how steady readers are put together.
-/

namespace StateSpace.Wire

variable {p : UInt8 → Bool} {b : UInt8} {r r' s u ws : Bytes}

def SameNext (s s' : Bytes) : Prop := ∃ b, s.head? = some b ∧ s'.head? = some b

theorem SameNext.append (h : SameNext u s) (w : Bytes) : SameNext (w ++ u) (w ++ s) := by
  cases w with
  | nil => exact h
  | cons b w => exact ⟨b, rfl, rfl⟩

theorem SameNext.clear (h : SameNext u s) (hu : Clear p u) : Clear p s := by
  obtain ⟨b, hb, hb'⟩ := h
  intro c hc
  rw [hb'] at hc
  cases hc
  exact hu b hb

theorem SameNext.cons (h : SameNext (b :: u) s) : ∃ u', s = b :: u' := by
  obtain ⟨_, ⟨⟩, hs⟩ := h
  exact List.head?_eq_some_iff.1 hs

theorem not_sameNext_nil : ¬SameNext [] s := by
  rintro ⟨_, ⟨⟩, _⟩

theorem blank_of_append_trim {w : Bytes} (h : r = w ++ trim r) : Blank w := by
  obtain ⟨ws, hw, hr⟩ := exists_blank r
  have hws : w = ws := List.append_cancel_right (h.symm.trans hr)
  exact hws ▸ hw

theorem trim_of_sameNext (hw : Blank ws) (h : SameNext (trim r) s) : trim (ws ++ s) = s := by
  rw [trim_append hw]
  exact dropWhile_of_clear (h.clear clear_dropWhile)

namespace Reader

variable {α β : Type} {x y : Reader α} {f g : α → Reader β} {a : α} {R : α → Bytes → Prop} {n d room : Nat}
  {C C' : ParseFault → Bytes → Bytes → Prop}

/-! ## Results at a glance -/

/-- With the bytes `r` left, `x` returns `a` and leaves `r'`. -/
def Yields (x : Reader α) (r : Bytes) (a : α) (r' : Bytes) : Prop :=
  ∀ n d, r.length ≤ n → x (.facing n d r) = .ok a (.facing n d r')

def Refuses (x : Reader α) (r : Bytes) : Prop :=
  ∀ n d, r.length ≤ n → ∃ e c, x (.facing n d r) = .error e c

theorem Gives.yields (h : Gives x r R) (hR : R a r') : Yields x r a r' := fun _ _ hn => (h.run hn a _).2 ⟨r', hR, rfl⟩

theorem Gives.refuses (h : Gives x r R) (hR : ∀ a r', ¬R a r') : Refuses x r := by
  intro n d hn
  cases hx : x (.facing n d r) with
  | ok a c =>
    obtain ⟨r', hr', -⟩ := (h.run hn a c).1 hx
    exact absurd hr' (hR a r')
  | error e c => exact ⟨e, c, rfl⟩

theorem bind_eq_error {c c' : Cursor} {e : ParseError} : (x >>= f) c = .error e c' ↔
    x c = .error e c' ∨ ∃ a c₁, x c = .ok a c₁ ∧ f a c₁ = .error e c' := by
  show EStateM.bind x f c = _ ↔ _
  unfold EStateM.bind
  cases hx : x c with
  | ok a c₁ =>
    constructor
    · intro h
      exact .inr ⟨a, c₁, rfl, h⟩
    · rintro (⟨⟨⟩⟩ | ⟨_, _, ⟨⟩, h⟩)
      exact h
  | error e' c₁ =>
    constructor
    · rintro ⟨⟩
      exact .inl rfl
    · rintro (⟨⟨⟩⟩ | ⟨_, _, ⟨⟩, _⟩)
      rfl

theorem bind_run {c c₁ : Cursor} (h : x c = .ok a c₁) : (x >>= f) c = f a c₁ := by
  show EStateM.bind x f c = _
  rw [EStateM.bind, h]

theorem bind_run_congr {c : Cursor} (h : ∀ a c₁, x c = .ok a c₁ → f a c₁ = g a c₁) : (x >>= f) c = (x >>= g) c := by
  show EStateM.bind x f c = EStateM.bind x g c
  unfold EStateM.bind
  cases hx : x c with
  | ok a c₁ => exact h a c₁ hx
  | error e c₁ => rfl

theorem bind_run_left {c : Cursor} (h : x c = y c) : (x >>= f) c = (y >>= f) c := by
  show EStateM.bind x f c = EStateM.bind y f c
  rw [EStateM.bind, EStateM.bind, h]

theorem map_eq_ok {g : α → β} {b : β} {c c' : Cursor} : (g <$> x) c = .ok b c' ↔ ∃ a, x c = .ok a c' ∧ g a = b := by
  show EStateM.map g x c = _ ↔ _
  unfold EStateM.map
  cases x c with
  | ok a c₁ => simp [and_comm]
  | error e c₁ => simp

theorem map_eq_error {g : α → β} {e : ParseError} {c c' : Cursor} : (g <$> x) c = .error e c' ↔ x c = .error e c' := by
  show EStateM.map g x c = _ ↔ _
  unfold EStateM.map
  cases x c with
  | ok a c₁ => simp
  | error e c₁ => simp

theorem Yields.bind {v : β} {r'' : Bytes} (hx : Yields x r a r') (hle : r'.length ≤ r.length)
    (hf : Yields (f a) r' v r'') : Yields (x >>= f) r v r'' := by
  intro n d hn
  rw [bind_run (hx n d hn)]
  exact hf n d (hle.trans hn)

theorem Yields.refuses (hx : Yields x r a r') (hle : r'.length ≤ r.length) (hf : Refuses (f a) r') :
    Refuses (x >>= f) r := by
  intro n d hn
  rw [bind_run (hx n d hn)]
  exact hf n d (hle.trans hn)

theorem Refuses.bind (hx : Refuses x r) : Refuses (x >>= f) r := by
  intro n d hn
  obtain ⟨e, c, h⟩ := hx n d hn
  exact ⟨e, c, bind_eq_error.2 (.inl h)⟩

/-! ## Steady readers -/

/-- What `x` does with the bytes `r` left, and that it would do the same with other bytes as long as those that it
takes, and the next one, are the same. A failure is between bytes `w` and `u` for which `C` holds. -/
structure Steady (room : Nat) (x : Reader α) (r : Bytes) (C : ParseFault → Bytes → Bytes → Prop) : Prop where
  ok : ∀ {n d a c}, r.length ≤ n → x (.facing n d r) = .ok a c →
    ∃ w r', r = w ++ r' ∧ c = .facing n d r' ∧ ∀ s, SameNext r' s → Yields x (w ++ s) a s
  error : ∀ {n d e c}, r.length ≤ n → x (.facing n d r) = .error e c →
    (∃ d' r', c = .facing n d' r' ∧ r' <:+ r ∧ d ≤ d' ∧ d' ≤ d + room) ∧
      ∃ w u, r = w ++ u ∧ e.position = n - u.length ∧ C e.fault w u ∧
        (e.fault ≠ .integerTooLarge → ∀ s, SameNext u s → Refuses x (w ++ s))

theorem stays (hr' : r' <:+ r) :
    ∃ d' r'', Cursor.facing n d r' = .facing n d' r'' ∧ r'' <:+ r ∧ d ≤ d' ∧ d' ≤ d + room :=
  ⟨d, r', rfl, hr', Nat.le_refl d, Nat.le_add_right d room⟩

theorem Steady.mono (h : Steady room x r C) (hC : ∀ fault w u, r = w ++ u → C fault w u → C' fault w u) :
    Steady room x r C' := by
  refine ⟨h.ok, fun hn he => ?_⟩
  obtain ⟨hleft, w, u, hr, hpos, hw, hrefuses⟩ := h.error hn he
  exact ⟨hleft, w, u, hr, hpos, hC _ w u hr hw, hrefuses⟩

theorem Steady.congr (h : ∀ r n d, r.length ≤ n → x (.facing n d r) = y (.facing n d r)) (hy : Steady room y r C) :
    Steady room x r C := by
  constructor
  · intro n d a c hn hx
    rw [h r n d hn] at hx
    obtain ⟨w, r', hr, hc, hyields⟩ := hy.ok hn hx
    refine ⟨w, r', hr, hc, fun s hs n' d' hn' => ?_⟩
    rw [h _ n' d' hn']
    exact hyields s hs n' d' hn'
  · intro n d e c hn hx
    rw [h r n d hn] at hx
    obtain ⟨hleft, w, u, hr, hpos, hw, hrefuses⟩ := hy.error hn hx
    refine ⟨hleft, w, u, hr, hpos, hw, fun hne s hs n' d' hn' => ?_⟩
    rw [h _ n' d' hn']
    exact hrefuses hne s hs n' d' hn'

theorem Steady.yields {w : Bytes} (hr : r = w ++ r') (h : Yields x r a r')
    (hnext : ∀ s, SameNext r' s → Yields x (w ++ s) a s) : Steady room x r C := by
  constructor
  · intro n d a' c hn hx
    rw [h n d hn] at hx
    cases hx
    exact ⟨w, r', hr, rfl, hnext⟩
  · intro n d e c hn hx
    rw [h n d hn] at hx
    cases hx

theorem Steady.pure : Steady room (pure a) r C :=
  .yields (w := []) rfl (fun _ _ _ => rfl) fun _ _ _ _ _ => rfl

theorem Steady.fails {fault : ParseFault} (hr' : r' <:+ r)
    (h : ∀ n d, r.length ≤ n → x (.facing n d r) = .error ⟨fault, n - r.length⟩ (.facing n d r'))
    (hnext : ∀ s, SameNext r s → Refuses x s) (hC : C fault [] r) : Steady room x r C := by
  constructor
  · intro n d a c hn hx
    rw [h n d hn] at hx
    cases hx
  · intro n d e c hn hx
    rw [h n d hn] at hx
    cases hx
    exact ⟨stays hr', [], r, rfl, rfl, hC, fun _ s hs => hnext s hs⟩

theorem Steady.fail {fault : ParseFault} (hC : C fault [] r) : Steady room (fail fault : Reader α) r C :=
  .fails List.suffix_rfl (fun _ _ _ => rfl) (fun _ _ _ _ _ => ⟨_, _, rfl⟩) hC

theorem Steady.bind (hgives : Gives x r R) (hx : Steady room x r C)
    (hf : ∀ a w r', r = w ++ r' → R a r' → Steady room (f a) r' fun fault w' u => C fault (w ++ w') u) :
    Steady room (x >>= f) r C := by
  -- bytes that agree up to where the second reader stops agree up to where the first one does
  have hfirst : ∀ {n d a c}, r.length ≤ n → x (.facing n d r) = .ok a c → ∃ w r', r = w ++ r' ∧ c = .facing n d r' ∧
      (Steady room (f a) r' fun fault w' u => C fault (w ++ w') u) ∧
      r'.length ≤ n ∧ ∀ w' u s, r' = w' ++ u → SameNext u s → Yields x (w ++ (w' ++ s)) a (w' ++ s) := by
    intro n d a c hn h
    obtain ⟨w, r', hr, rfl, hyields⟩ := hx.ok hn h
    obtain ⟨r'', hR, hc⟩ := (hgives.run hn a _).1 h
    cases hc
    refine ⟨w, r', hr, rfl, hf a w r' hr hR, (hgives.length_le hR).trans hn, fun w' u s hr' hs => ?_⟩
    apply hyields
    rw [hr']
    exact hs.append w'
  have hlen : ∀ w s : Bytes, s.length ≤ (w ++ s).length := fun w s => (List.suffix_append w s).length_le
  constructor
  · intro n d v c hn h
    obtain ⟨a, c₁, h₁, h₂⟩ := bind_eq_ok.1 h
    obtain ⟨w, r', rfl, rfl, hsteady, hn', hyields⟩ := hfirst hn h₁
    obtain ⟨w', r'', rfl, rfl, hyields'⟩ := hsteady.ok hn' h₂
    refine ⟨w ++ w', r'', by rw [List.append_assoc], rfl, fun s hs => ?_⟩
    rw [List.append_assoc]
    exact (hyields w' r'' s rfl hs).bind (hlen _ _) (hyields' s hs)
  · intro n d e c hn h
    rcases bind_eq_error.1 h with h₁ | ⟨a, c₁, h₁, h₂⟩
    · obtain ⟨hleft, w, u, hr, hpos, hC, hrefuses⟩ := hx.error hn h₁
      exact ⟨hleft, w, u, hr, hpos, hC, fun hne s hs => (hrefuses hne s hs).bind⟩
    · obtain ⟨w, r', rfl, rfl, hsteady, hn', hyields⟩ := hfirst hn h₁
      obtain ⟨⟨d', r'', rfl, hsuffix, hd⟩, w', u, rfl, hpos, hC, hrefuses⟩ := hsteady.error hn' h₂
      refine ⟨⟨d', r'', rfl, hsuffix.trans (List.suffix_append w _), hd⟩, w ++ w', u, by rw [List.append_assoc], hpos,
        hC, fun hne s hs => ?_⟩
      rw [List.append_assoc]
      exact (hyields w' u s rfl hs).refuses (hlen _ _) (hrefuses hne s hs)

theorem Steady.map {g : α → β} (h : Steady room x r C) : Steady room (g <$> x) r C := by
  constructor
  · intro n d v c hn hx
    obtain ⟨a, ha, rfl⟩ := map_eq_ok.1 hx
    obtain ⟨w, r', hr, hc, hyields⟩ := h.ok hn ha
    exact ⟨w, r', hr, hc, fun s hs n' d' hn' => map_eq_ok.2 ⟨a, hyields s hs n' d' hn', rfl⟩⟩
  · intro n d e c hn hx
    obtain ⟨hleft, w, u, hr, hpos, hC, hrefuses⟩ := h.error hn (map_eq_error.1 hx)
    refine ⟨hleft, w, u, hr, hpos, hC, fun hne s hs n' d' hn' => ?_⟩
    obtain ⟨e', c', he⟩ := hrefuses hne s hs n' d' hn'
    exact ⟨e', c', map_eq_error.2 he⟩

/-! ## Single bytes -/

theorem advance_yields : Yields advance (b :: r) () r := advance_gives.yields ⟨rfl, rfl⟩

theorem Steady.advance_bind {f : Unit → Reader β}
    (hf : Steady room (f ()) u fun fault w u' => C fault (b :: w) u') : Steady room (advance >>= f) (b :: u) C := by
  refine .bind advance_gives (.yields (w := [b]) rfl advance_yields fun s _ => advance_yields) ?_
  rintro _ w _ hr ⟨rfl, rfl⟩
  have hw : w = [b] := List.append_cancel_right (hr.symm.trans (List.singleton_append).symm)
  rw [hw]
  exact hf

/-- A reader that takes a byte and fails at it. -/
theorem Steady.advance_failBehind {fault : ParseFault} (hC : C fault [] (b :: u)) :
    Steady room (do advance; failBehind fault : Reader α) (b :: u) C := by
  have hrun : ∀ u' n d, (b :: u').length ≤ n → (do advance; failBehind fault : Reader α) (.facing n d (b :: u')) =
      .error ⟨fault, n - (b :: u').length⟩ (.facing n d u') := by
    intro u' n d hn
    have hpos : n - u'.length - 1 = n - (b :: u').length := by rw [List.length_cons]; omega
    rw [bind_run (advance_yields n d hn), ← hpos]
    rfl
  refine .fails (List.suffix_cons b u) (hrun u) (fun s hs n d hn => ?_) hC
  obtain ⟨u', rfl⟩ := hs.cons
  exact ⟨_, _, hrun u' n d hn⟩

theorem Steady.blanks_bind {f : Unit → Reader β}
    (hf : ∀ ws, Blank ws → r = ws ++ trim r → Steady room (f ()) (trim r) fun fault w u => C fault (ws ++ w) u) :
    Steady room (blanks >>= f) r C := by
  obtain ⟨ws, hw, hr⟩ := exists_blank r
  refine .bind blanks_gives (.yields hr (blanks_gives.yields ⟨rfl, rfl⟩) fun s hs => blanks_gives.yields ⟨rfl, ?_⟩) ?_
  · exact (trim_of_sameNext hw hs).symm
  · rintro _ w _ hr' ⟨rfl, rfl⟩
    exact hf w (blank_of_append_trim hr') hr'

theorem Steady.nextIs_bind {f : Bool → Reader β} (hf : Steady room (f (r.head? == some b)) r C) :
    Steady room (nextIs b >>= f) r C := by
  refine .bind nextIs_gives (.yields (w := []) rfl (nextIs_gives.yields ⟨rfl, rfl⟩) ?_) ?_
  · rintro s ⟨c, hr, hs⟩
    exact nextIs_gives.yields ⟨by rw [hr, ← hs]; rfl, rfl⟩
  · rintro _ w _ hr ⟨rfl, rfl⟩
    have hw : w = [] := List.self_eq_append_left.1 hr
    rw [hw]
    exact hf

theorem peek_run_nil (htrim : trim r = []) (hn : r.length ≤ n) :
    peek (.facing n d r) = .error ⟨.unexpectedEnd, n⟩ (.facing n d []) := by
  have hblanks : blanks (.facing n d r) = .ok () (.facing n d []) := blanks_gives.yields ⟨rfl, htrim.symm⟩ n d hn
  rw [peek, bind_run hblanks]
  rfl

theorem peek_steady (hnil : trim r = [] → C .unexpectedEnd r []) : Steady room peek r C := by
  obtain ⟨ws, hw, hr⟩ := exists_blank r
  cases htrim : trim r with
  | nil =>
    constructor
    · intro n d a c hn h
      rw [peek_run_nil htrim hn] at h
      cases h
    · intro n d e c hn h
      rw [peek_run_nil htrim hn] at h
      cases h
      exact ⟨stays List.nil_suffix, r, [], (List.append_nil r).symm, rfl, hnil htrim,
        fun _ s hs => absurd hs not_sameNext_nil⟩
  | cons b u =>
    refine .yields hr (peek_gives.yields (a := b) ⟨rfl, by rw [htrim]; rfl⟩) fun s hs => peek_gives.yields ⟨?_, ?_⟩
    · exact trim_of_sameNext hw hs
    · rw [htrim] at hs
      obtain ⟨u', rfl⟩ := hs.cons
      rfl

theorem Steady.peek_bind {f : UInt8 → Reader β} (hnil : trim r = [] → C .unexpectedEnd r [])
    (hcons : ∀ ws b u, Blank ws → r = ws ++ b :: u → trim r = b :: u →
      Steady room (f b) (b :: u) fun fault w u' => C fault (ws ++ w) u') : Steady room (peek >>= f) r C := by
  refine .bind peek_gives (peek_steady hnil) ?_
  rintro b w _ hr ⟨rfl, hhead⟩
  obtain ⟨u, hu⟩ := List.head?_eq_some_iff.1 hhead
  have hw := blank_of_append_trim hr
  rw [hu] at hr ⊢
  exact hcons w b u hw hr hu

theorem Steady.expect_bind {f : Unit → Reader β} (hnil : trim r = [] → C .unexpectedEnd r [])
    (hother : ∀ ws c u, Blank ws → r = ws ++ c :: u → C (.expected b) ws (c :: u))
    (hf : ∀ ws u, Blank ws → r = ws ++ b :: u →
      Steady room (advance >>= f) (b :: u) fun fault w u' => C fault (ws ++ w) u') :
    Steady room (expect b >>= f) r C := by
  rw [expect, bind_assoc]
  refine .peek_bind hnil fun ws c u hw hr _ => ?_
  by_cases hc : c = b
  · subst hc
    rw [if_pos (beq_self_eq_true c)]
    exact hf ws u hw hr
  · rw [if_neg (by rw [beq_iff_eq]; exact hc)]
    refine Steady.fail (α := β) ?_
    rw [List.append_nil]
    exact hother ws c u hw hr

/-! ## Lists -/

/-- A reader inside one more list, which it leaves when it returns. -/
def inside (x : Reader α) : Reader α := do
  modify fun c => { c with depth := c.depth + 1 }
  let v ← x
  modify fun c => { c with depth := c.depth - 1 }
  return v

theorem inside_ok (h : x (.facing n (d + 1) r) = .ok a (.facing n (d + 1) r')) :
    inside x (.facing n d r) = .ok a (.facing n d r') := by
  refine bind_eq_ok.2 ⟨(), .facing n (d + 1) r, rfl, ?_⟩
  rw [bind_run h]
  rfl

theorem inside_error {e : ParseError} {c : Cursor} (h : x (.facing n (d + 1) r) = .error e c) :
    inside x (.facing n d r) = .error e c :=
  bind_eq_error.2 (.inr ⟨(), .facing n (d + 1) r, rfl, bind_eq_error.2 (.inl h)⟩)

theorem Steady.nested (h : Steady room x r C) : Steady (room + 1) (inside x) r C := by
  constructor
  · intro n d a c hn hrun
    cases hx : x (.facing n (d + 1) r) with
    | ok a' c' =>
      obtain ⟨w, r', hr, rfl, hyields⟩ := h.ok hn hx
      rw [inside_ok hx] at hrun
      cases hrun
      exact ⟨w, r', hr, rfl, fun s hs n' d' hn' => inside_ok (hyields s hs n' (d' + 1) hn')⟩
    | error e c' =>
      rw [inside_error hx] at hrun
      cases hrun
  · intro n d e c hn hrun
    cases hx : x (.facing n (d + 1) r) with
    | ok a' c' =>
      obtain ⟨w, r', hr, rfl, -⟩ := h.ok hn hx
      rw [inside_ok hx] at hrun
      cases hrun
    | error e' c' =>
      rw [inside_error hx] at hrun
      cases hrun
      obtain ⟨⟨d', r', rfl, hr', hlo, hhi⟩, w, u, hr, hpos, hC, hrefuses⟩ := h.error hn hx
      refine ⟨⟨d', r', rfl, hr', by omega, by omega⟩, w, u, hr, hpos, hC, fun hne s hs n' d' hn' => ?_⟩
      obtain ⟨e, c, he⟩ := hrefuses hne s hs n' (d' + 1) hn'
      exact ⟨e, c, inside_error he⟩

end Reader

end StateSpace.Wire
