import Mathlib.Algebra.BigOperators.Group.List.Basic
import Mathlib.Logic.Function.Iterate
import StateSpace.Proofs.Discoveries.Contest

/-!
# What evaluations record

* `Contested ps inputs s` : what holds after any interleaving: a discovery is claimed by one call, and is the fingerprint of
  that call, whose state resolves the property; the counter never runs ahead, and is exact when all calls have ended;
* `play_alone` : without steps of others between, a call does what `Discoveries.evaluate` does;
* `first_resolver_recorded` : what evaluations record, one after another or interleaved.
-/

namespace StateSpace

namespace Contest

variable {σ : Type} {ps : List (Property σ)} {inputs : List (σ × Fingerprint)} {d d' : Discoveries} {c : Call σ}
  {s : Contest σ}

/-! ## What an interleaving records -/

theorem filled_eq (d : Discoveries) (i : Nat) : filled d i = if (d.get? i).isSome then 1 else 0 := by
  unfold filled Discoveries.get?
  by_cases hslot : d.slot i = Hash.noFingerprint
  · rw [if_pos hslot, if_pos hslot]
    rfl
  · rw [if_neg hslot, if_neg hslot]
    rfl

theorem grows_get? (h : Discoveries.Grows d d') {i : Nat} {fp : Fingerprint} (hget : d.get? i = some fp) :
    d'.get? i = some fp := by
  obtain ⟨hslot, hne⟩ := Discoveries.get?_eq_some.1 hget
  exact Discoveries.get?_eq_some.2 ⟨(h.2 i (by rwa [hslot])).trans hslot, hne⟩

/-- What holds after any interleaving of the steps of calls. -/
structure Contested (ps : List (Property σ)) (inputs : List (σ × Fingerprint)) (s : Contest σ) : Prop where
  /-- The calls are those that began. -/
  begun : s.calls.map (fun c => (c.state, c.fp)) = inputs
  /-- A discovery is claimed by exactly one call, and nothing else is claimed. -/
  once : ∀ i, (s.calls.map (Call.claims i)).sum = if (s.discoveries.get? i).isSome then 1 else 0
  /-- It is the fingerprint of that call, and the state of that call resolves the property. -/
  recorded : ∀ i fp, s.discoveries.get? i = some fp →
    ∃ c ∈ s.calls, 0 < c.claims i ∧ c.fp = fp ∧ ∃ p, ps[i]? = some p ∧ p.ResolvedBy c.state
  /-- It stays, whatever comes. -/
  stays : ∀ more i fp, s.discoveries.get? i = some fp → (s.play ps more).discoveries.get? i = some fp
  /-- The counter lags by the calls that are about to count. -/
  counted : s.discoveries.count + (s.calls.map Call.owes).sum = s.discoveries.slots.countP (· ≠ Hash.noFingerprint)
  /-- The counter never runs ahead. -/
  complete : s.discoveries.complete = true → ps ≠ [] ∧ ∀ i < ps.length, s.discoveries.get? i ≠ none
  /-- When all calls have ended, a discovery was reported by exactly one, and the counter is exact. -/
  ended : (∀ c ∈ s.calls, c.Ended ps) →
    (∀ i, (s.calls.map fun c => c.reported.count i).sum = if (s.discoveries.get? i).isSome then 1 else 0) ∧
    (s.discoveries.complete = true ↔ ps ≠ [] ∧ ∀ i < ps.length, s.discoveries.get? i ≠ none)
  /-- If none raised a fault, what some state resolves has a discovery. -/
  settled : (∀ c ∈ s.calls, c.Ended ps ∧ c.fault = none) → ∀ i p, ps[i]? = some p →
    (s.discoveries.get? i ≠ none ↔ ∃ x ∈ inputs, p.ResolvedBy x.1)

theorem Fair.recorded (h : Fair ps inputs s) {i : Nat} {fp : Fingerprint} (hget : s.discoveries.get? i = some fp) :
    ∃ c ∈ s.calls, 0 < c.claims i ∧ c.fp = fp ∧ ∃ p, ps[i]? = some p ∧ p.ResolvedBy c.state := by
  have hsum : (s.calls.map (Call.claims i)).sum ≠ 0 := by
    rw [h.once, filled_eq, hget]
    exact Nat.one_ne_zero
  obtain ⟨n, hn, hpos⟩ := List.exists_mem_ne_zero_of_sum_ne_zero hsum
  obtain ⟨c, hc, rfl⟩ := List.mem_map.1 hn
  have hpos := Nat.pos_of_ne_zero hpos
  obtain ⟨hslot, hres⟩ := h.backed c hc i hpos
  exact ⟨c, hc, hpos, hslot.symm.trans (Discoveries.get?_eq_some.1 hget).1, hres⟩

theorem Fair.complete (h : Fair ps inputs s) (hcomplete : s.discoveries.complete = true) :
    ps ≠ [] ∧ ∀ i < ps.length, s.discoveries.get? i ≠ none := by
  have hcount : s.discoveries.count = s.discoveries.slots.length := by
    unfold Discoveries.complete at hcomplete
    rw [Bool.and_eq_true, beq_iff_eq] at hcomplete
    exact hcomplete.2
  have hcounted : s.discoveries.Counted := by
    have hlag := h.counted
    have hle := List.countP_le_length (p := fun fp => decide (fp ≠ Hash.noFingerprint)) (l := s.discoveries.slots)
    unfold Discoveries.Counted
    omega
  exact (hcounted.complete_iff_get? h.length).1 hcomplete

theorem Fair.not_counting (h : Fair ps inputs s) (hc : c ∈ s.calls) (hend : c.Ended ps) : c.look ≠ .counting := by
  intro hlook
  obtain ⟨hfault, p, hp, -⟩ := h.resolves c hc (Or.inr hlook)
  rcases hend with hf | hplace
  · exact hf hfault
  · rw [List.getElem?_eq_none hplace] at hp
    cases hp

/-- When all calls have ended, nothing is left to be counted or reported. -/
theorem Fair.ended (h : Fair ps inputs s) (hend : ∀ c ∈ s.calls, c.Ended ps) :
    (∀ i, (s.calls.map fun c => c.reported.count i).sum = if (s.discoveries.get? i).isSome then 1 else 0) ∧
    (s.discoveries.complete = true ↔ ps ≠ [] ∧ ∀ i < ps.length, s.discoveries.get? i ≠ none) := by
  refine ⟨fun i => ?_, ?_⟩
  · have hclaims : (s.calls.map fun c => c.reported.count i) = s.calls.map (Call.claims i) := by
      refine List.map_congr_left fun c hc => ?_
      rw [Call.claims, if_neg fun hlook => h.not_counting hc (hend c hc) hlook.1, Nat.add_zero]
    rw [hclaims, h.once, filled_eq]
  · have howes : (s.calls.map Call.owes).sum = 0 := by
      refine List.sum_eq_zero fun n hn => ?_
      obtain ⟨c, hc, rfl⟩ := List.mem_map.1 hn
      exact if_neg (h.not_counting hc (hend c hc))
    have hcounted : s.discoveries.Counted := by
      have hlag := h.counted
      rwa [howes, Nat.add_zero] at hlag
    exact hcounted.complete_iff_get? h.length

/-- When all calls have gone through all properties, what the state of one resolves has a discovery. -/
theorem Fair.settled (h : Fair ps inputs s) (hend : ∀ c ∈ s.calls, c.Ended ps ∧ c.fault = none) {i : Nat}
    {p : Property σ} (hp : ps[i]? = some p) :
    s.discoveries.get? i ≠ none ↔ ∃ x ∈ inputs, p.ResolvedBy x.1 := by
  constructor
  · intro hne
    obtain ⟨fp, hget⟩ := Option.ne_none_iff_exists'.1 hne
    obtain ⟨c, hc, -, -, q, hq, hres⟩ := h.recorded hget
    rw [hp] at hq
    cases hq
    refine ⟨(c.state, c.fp), ?_, hres⟩
    rw [← h.inputs]
    exact List.mem_map_of_mem hc
  · rintro ⟨x, hx, hres⟩
    rw [← h.inputs] at hx
    obtain ⟨c, hc, rfl⟩ := List.mem_map.1 hx
    obtain ⟨hended, hfault⟩ := hend c hc
    have hplace := hended.resolve_left fun hf => hf hfault
    have hlt := Nat.lt_of_lt_of_le (List.getElem?_eq_some_iff.1 hp).1 hplace
    rw [Ne, Discoveries.get?_eq_none]
    rcases h.past c hc i hlt p hp with hne | hopen
    · exact hne
    · exact absurd hres hopen.not_resolvedBy

theorem Fair.contested (h : Fair ps inputs s) : Contested ps inputs s where
  begun := h.inputs
  once i := by rw [h.once, filled_eq]
  recorded _ _ := h.recorded
  stays more _ _ := grows_get? (grows_play ps s more)
  counted := h.counted
  complete := h.complete
  ended := h.ended
  settled hend _ _ := h.settled hend

/-! ## A call alone -/

def alone (ps : List (Property σ)) (x : Discoveries × Call σ) : Discoveries × Call σ := x.2.next ps x.1

theorem play_replicate (ps : List (Property σ)) (n k : Nat) {s : Contest σ} {c : Call σ} (hk : s.calls[k]? = some c) :
    s.play ps (List.replicate n k) =
      ⟨((alone ps)^[n] (s.discoveries, c)).1, s.calls.set k ((alone ps)^[n] (s.discoveries, c)).2⟩ := by
  induction n generalizing s c with
  | zero =>
    obtain ⟨hlt, rfl⟩ := List.getElem?_eq_some_iff.1 hk
    rw [Function.iterate_zero_apply, List.set_getElem_self]
    rfl
  | succ n ih =>
    have hlt := (List.getElem?_eq_some_iff.1 hk).1
    have hstep := step_eq ps hk
    rw [List.replicate_succ, play, List.foldl_cons, hstep]
    refine (ih (s := ⟨_, _⟩) (List.getElem?_set_self hlt)).trans ?_
    rw [Function.iterate_succ_apply, List.set_set]
    rfl

theorem evaluation_reported {p : Property σ} (hp : ps[c.place]? = some p) (d : Discoveries) :
    ({ c with reported := c.place :: c.reported } : Call σ).evaluation ps d =
      (c.evaluation ps d).found p.expectation (.resolved p.name p.expectation c.fp) := by
  cases hexp : p.expectation <;>
    simp [Call.evaluation, Call.findings, Call.messages, Discoveries.Evaluation.found, hp, hexp]

/-- Up to `n` steps of a call alone make it the evaluation `e`. -/
def Yields (ps : List (Property σ)) (n : Nat) (d : Discoveries) (c c' : Call σ) (e : Discoveries.Evaluation) : Prop :=
  (∃ k ≤ n, (alone ps)^[k] (d, c) = (e.discoveries, c')) ∧ c'.evaluation ps e.discoveries = e ∧ c'.state = c.state ∧
    c'.fp = c.fp

variable {n m : Nat} {c' c'' : Call σ} {e e' : Discoveries.Evaluation}

theorem Yields.here (n : Nat) (h : c.evaluation ps d = e) : Yields ps n d c c e := by
  subst h
  exact ⟨⟨0, Nat.zero_le n, rfl⟩, rfl, rfl, rfl⟩

theorem Yields.trans (h : Yields ps n d c c' e) (h' : Yields ps m e.discoveries c' c'' e') :
    Yields ps (n + m) d c c'' e' := by
  obtain ⟨⟨k, hk, heq⟩, -, hstate, hfp⟩ := h
  obtain ⟨⟨k', hk', heq'⟩, hev, hstate', hfp'⟩ := h'
  refine ⟨⟨k' + k, by omega, ?_⟩, hev, hstate'.trans hstate, hfp'.trans hfp⟩
  rw [Function.iterate_add_apply, heq, heq']

theorem Yields.step (hnext : c.next ps d = (d', c')) (hstate : c'.state = c.state) (hfp : c'.fp = c.fp)
    (h : Yields ps n d' c' c'' e) : Yields ps (n + 1) d c c'' e := by
  obtain ⟨⟨k, hk, heq⟩, hev, hstate', hfp'⟩ := h
  refine ⟨⟨k + 1, by omega, ?_⟩, hev, hstate'.trans hstate, hfp'.trans hfp⟩
  rw [Function.iterate_succ_apply, alone, hnext, heq]

/-- A call that goes on undisturbed evaluates the property that it is at. -/
theorem yields_one {p : Property σ} (hf : c.fault = none) (hlook : c.look = .loading) (hp : ps[c.place]? = some p)
    (d : Discoveries) : ∃ c', Yields ps 4 d c c' (Discoveries.evaluateOne c.state c.fp (c.evaluation ps d) p c.place) ∧
      (c'.fault = none → c'.look = .loading ∧ c'.place = c.place + 1) := by
  have hload := next_loading hf hp hlook d
  by_cases hslot : d.slot c.place = Hash.noFingerprint
  · rw [if_pos hslot] at hload
    rcases Discoveries.evaluateOne_cases c.state c.fp (c.evaluation ps d) p c.place with
      ⟨hne, -⟩ | ⟨-, ⟨f, hcond, heq⟩ | ⟨⟨holds, hcond, hopen⟩, heq⟩ | ⟨⟨holds, hcond, hres⟩, heq⟩⟩
    · exact absurd hslot hne
    · have htest := next_raises (c := { c with look := .testing }) hf hp rfl d hcond
      rw [heq]
      exact ⟨_, .step hload rfl rfl (.step htest rfl rfl (.here 2 rfl)), fun h => by cases h⟩
    · have htest := next_testing (c := { c with look := .testing }) hf hp rfl d hcond
      rw [hopen] at htest
      rw [heq]
      exact ⟨_, .step hload rfl rfl (.step htest rfl rfl (.here 2 rfl)), fun _ => ⟨rfl, rfl⟩⟩
    · have htest := next_testing (c := { c with look := .testing }) hf hp rfl d hcond
      rw [hres, if_pos rfl] at htest
      have hstore := next_exchanging (c := { c with look := .exchanging }) hf hp rfl d
      rw [if_pos hslot] at hstore
      have hcount := next_counting (c := { c with look := .counting }) hf hp rfl ⟨d.slots.set c.place c.fp, d.count⟩
      rw [heq]
      refine ⟨_, .step hload rfl rfl (.step htest rfl rfl (.step hstore rfl rfl (.step hcount rfl rfl (.here 0 ?_)))),
        fun _ => ⟨rfl, rfl⟩⟩
      exact evaluation_reported hp _
  · rw [if_neg hslot] at hload
    have hskip : Discoveries.evaluateOne c.state c.fp (c.evaluation ps d) p c.place = c.evaluation ps d := if_pos hslot
    rw [hskip]
    exact ⟨_, .step hload rfl rfl (.here 3 rfl), fun _ => ⟨rfl, rfl⟩⟩

/-- So it evaluates all properties that are left. -/
theorem yields_all (qs : List (Property σ)) (d : Discoveries) (c : Call σ) (hf : c.fault = none)
    (hlook : c.look = .loading) (hqs : ps.drop c.place = qs) : ∃ c', Yields ps (4 * qs.length) d c c'
      (Discoveries.evaluateFrom c.state c.fp (qs.zipIdx c.place) (c.evaluation ps d)) ∧ c'.Ended ps := by
  induction qs generalizing d c with
  | nil => exact ⟨c, .here _ rfl, Or.inr (List.drop_eq_nil_iff.1 hqs)⟩
  | cons q qs ih =>
    have hp : ps[c.place]? = some q := by
      rw [← List.head?_drop, hqs]
      rfl
    have hrest : ps.drop (c.place + 1) = qs := by
      rw [← List.tail_drop, hqs]
      rfl
    obtain ⟨c₁, hone, hnext⟩ := yields_one hf hlook hp d
    have hfault : (Discoveries.evaluateOne c.state c.fp (c.evaluation ps d) q c.place).fault = c₁.fault := by
      rw [← hone.2.1]
      rfl
    rw [List.zipIdx_cons, Discoveries.evaluateFrom, List.length_cons, Nat.mul_succ, Nat.add_comm]
    rw [hfault]
    cases hf₁ : c₁.fault with
    | some f => exact ⟨c₁, hone.trans (.here _ hone.2.1), Or.inl (by simp [hf₁])⟩
    | none =>
      obtain ⟨hlook₁, hplace₁⟩ := hnext hf₁
      obtain ⟨c₂, hall, hend⟩ := ih (Discoveries.evaluateOne c.state c.fp (c.evaluation ps d) q c.place).discoveries c₁ hf₁
        hlook₁ (by rw [hplace₁, hrest])
      rw [hone.2.1, hone.2.2.1, hone.2.2.2, hplace₁] at hall
      exact ⟨c₂, hone.trans hall, hend⟩

/-- **A call alone** does what an evaluation does, in at most four steps for each property. -/
theorem play_alone (ps : List (Property σ)) {k : Nat} {state : σ} {fp : Fingerprint}
    (hk : s.calls[k]? = some { state, fp }) : ∃ n ≤ 4 * ps.length, ∃ c : Call σ,
      s.play ps (List.replicate n k) = ⟨(s.discoveries.evaluate ps state fp).discoveries, s.calls.set k c⟩ ∧ c.Ended ps ∧
      c.evaluation ps (s.discoveries.evaluate ps state fp).discoveries = s.discoveries.evaluate ps state fp := by
  obtain ⟨c, ⟨⟨n, hn, heq⟩, hev, -, -⟩, hend⟩ := yields_all ps s.discoveries { state, fp } rfl rfl rfl
  refine ⟨n, hn, c, ?_, hend, hev⟩
  rw [play_replicate ps n k hk, heq]
  rfl

/-- **Evaluations record who resolves a property first**: one after another, the first state that resolves it; interleaved
in any way, the state of exactly one call that resolves it, for good. -/
theorem first_resolver_recorded (ps : List (Property σ)) (inputs : List (σ × Fingerprint))
    (hfps : ∀ x ∈ inputs, x.2 ≠ Hash.noFingerprint) :
    ((∀ x ∈ inputs, Discoveries.Calm ps x.1) → Discoveries.Recorded ps inputs) ∧
    (∀ moves, Contested ps inputs ((start ps inputs).play ps moves)) ∧
    (∀ (s : Contest σ) (k : Nat) (state : σ) (fp : Fingerprint), s.calls[k]? = some { state, fp } →
      ∃ n ≤ 4 * ps.length, ∃ c : Call σ,
        s.play ps (List.replicate n k) = ⟨(s.discoveries.evaluate ps state fp).discoveries, s.calls.set k c⟩ ∧ c.Ended ps ∧
        c.evaluation ps (s.discoveries.evaluate ps state fp).discoveries = s.discoveries.evaluate ps state fp) := by
  refine ⟨fun hcalm => ?_, fun moves => ?_, fun s k state fp hk => play_alone ps hk⟩
  · exact Discoveries.recorded fun x hx => ⟨hcalm x hx, hfps x hx⟩
  · exact (fair_play hfps (fair_start ps inputs) moves).contested

def bounds : List (Property Nat) :=
  [⟨"below two", .always, fun n => .ok (n < 2)⟩, ⟨"one", .sometimes, fun n => .ok (n = 1)⟩]

/-- One after another, the first number above records the violation. If both have seen that there is no discovery and the
second one stores first, the second one does, alone. -/
theorem first_resolver_recorded_race :
    (Discoveries.served bounds [(2, 20), (3, 30), (1, 10)]).get? 0 = some 20 ∧
    ((start bounds [(2, 20), (3, 30), (1, 10)]).play bounds [0, 0, 1, 1, 1, 0, 1]).discoveries.get? 0 = some 30 ∧
    Contested bounds [(2, 20), (3, 30), (1, 10)]
      ((start bounds [(2, 20), (3, 30), (1, 10)]).play bounds [0, 0, 1, 1, 1, 0, 1]) := by
  have hfps : ∀ x ∈ [((2, 20) : Nat × Fingerprint), (3, 30), (1, 10)], x.2 ≠ Hash.noFingerprint := by decide
  have hcalm : ∀ x ∈ [((2, 20) : Nat × Fingerprint), (3, 30), (1, 10)], Discoveries.Calm bounds x.1 := by
    simp [Discoveries.Calm, bounds]
  obtain ⟨hrecorded, hcontested, -⟩ := first_resolver_recorded bounds _ hfps
  exact ⟨((hrecorded hcalm).discovery 0 _ rfl).trans (by decide), by decide, hcontested _⟩

end Contest

end StateSpace
