import Mathlib.Algebra.Ring.Nat
import Mathlib.Data.List.Induction
import StateSpace.Proofs.Discoveries

/-!
# One evaluation after another

* `served ps calls` : the discoveries after evaluations of states one after another; `outcomes ps calls` : what each found;
* `slot_evaluate`, `get?_served` : the discovery of a property is the fingerprint of the first state that resolves it;
* `evaluate_set_raises`, `evaluate_set_discovered` : a condition is evaluated as long as its property has no discovery, and
  not any more then;
* `discovered ps d e` : how many properties with the expectation `e` have a discovery; `findings_evaluate`, `sum_outcomes` :
  what evaluations find adds up to that.
-/

namespace StateSpace

variable {σ : Type}

instance (p : Property σ) (s : σ) : Decidable (p.ResolvedBy s) :=
  match h : p.condition s with
  | .ok holds => decidable_of_iff (p.expectation.resolvedBy holds = true) (by simp [Property.ResolvedBy, h])
  | .error _ => isFalse (by simp [Property.ResolvedBy, h])

def Findings.of (f : Findings) : Expectation → Nat
  | .always => f.violations
  | .sometimes => f.witnesses

namespace Discoveries

variable {ps : List (Property σ)} {d : Discoveries} {state : σ} {fp : Fingerprint}

/-- The discoveries after evaluations of states with their fingerprints, one after another. -/
def served (ps : List (Property σ)) (calls : List (σ × Fingerprint)) : Discoveries :=
  calls.foldl (fun d c => (d.evaluate ps c.1 c.2).discoveries) (.none ps.length)

/-- What evaluations of states find, one after another. -/
def outcomesFrom (ps : List (Property σ)) : Discoveries → List (σ × Fingerprint) → List Findings
  | _, [] => []
  | d, (state, fp) :: rest => (d.evaluate ps state fp).findings :: outcomesFrom ps (d.evaluate ps state fp).discoveries rest

def outcomes (ps : List (Property σ)) (calls : List (σ × Fingerprint)) : List Findings :=
  outcomesFrom ps (.none ps.length) calls

/-- How many properties with the expectation have a discovery. -/
def discovered (ps : List (Property σ)) (d : Discoveries) (e : Expectation) : Nat :=
  (ps.zip d.slots).countP fun x => x.1.expectation = e ∧ x.2 ≠ Hash.noFingerprint

/-! ## The first state that resolves a property -/

/-- No condition raises a fault on the state. -/
def Calm (ps : List (Property σ)) (state : σ) : Prop := ∀ p ∈ ps, ∃ holds, p.condition state = .ok holds

/-- A property that has no discovery gets one if and only if the state resolves it. -/
theorem slot_evaluate (hlen : d.slots.length = ps.length) (hfp : fp ≠ Hash.noFingerprint) (hcalm : Calm ps state) {i : Nat}
    {p : Property σ} (hp : ps[i]? = some p) : (d.evaluate ps state fp).discoveries.slot i =
      if d.slot i = Hash.noFingerprint ∧ p.ResolvedBy state then fp else d.slot i := by
  obtain ⟨hgrows, hnew, hjudged⟩ := evaluate_spec (d := d) state hfp hlen
  by_cases hslot : d.slot i = Hash.noFingerprint
  · by_cases hres : p.ResolvedBy state
    · rw [if_pos ⟨hslot, hres⟩]
      rcases hjudged (evaluate_fault hcalm fp) i p hp with hne | hopen
      · exact (hnew i (by rwa [hslot])).1
      · exact absurd hres hopen.not_resolvedBy
    · rw [if_neg fun h => hres h.2]
      by_contra hne
      obtain ⟨-, q, hq, hres'⟩ := hnew i hne
      rw [hp] at hq
      cases hq
      exact hres hres'
  · rw [if_neg fun h => hslot h.1, hgrows.2 i hslot]

theorem served_concat (ps : List (Property σ)) (calls : List (σ × Fingerprint)) (c : σ × Fingerprint) :
    served ps (calls ++ [c]) = ((served ps calls).evaluate ps c.1 c.2).discoveries := by
  rw [served, List.foldl_append]
  rfl

/-- The calls are on states on which no condition raises a fault, and with fingerprints. -/
def Proper (ps : List (Property σ)) (calls : List (σ × Fingerprint)) : Prop :=
  ∀ c ∈ calls, Calm ps c.1 ∧ c.2 ≠ Hash.noFingerprint

theorem length_evaluate (state : σ) (hlen : d.slots.length = ps.length) (hfp : fp ≠ Hash.noFingerprint) :
    (d.evaluate ps state fp).discoveries.slots.length = ps.length :=
  (evaluate_spec state hfp hlen).1.1.trans hlen

theorem length_served {calls : List (σ × Fingerprint)} (h : Proper ps calls) : (served ps calls).slots.length = ps.length := by
  induction calls using List.reverseRecOn with
  | nil => simp [served, none]
  | append_singleton calls c ih =>
    obtain ⟨hcalls, hc⟩ := List.forall_mem_append.1 h
    rw [served_concat]
    exact length_evaluate c.1 (ih hcalls) (hc c List.mem_cons_self).2

/-- **The discovery of a property** is the fingerprint of the first state that resolves it. -/
theorem get?_served {calls : List (σ × Fingerprint)} (h : Proper ps calls) {i : Nat} {p : Property σ}
    (hp : ps[i]? = some p) :
    (served ps calls).get? i = (calls.find? fun c => p.ResolvedBy c.1).map Prod.snd := by
  induction calls using List.reverseRecOn with
  | nil => exact get?_eq_none.2 (slot_none _ i)
  | append_singleton calls c ih =>
    obtain ⟨hcalls, hc⟩ := List.forall_mem_append.1 h
    obtain ⟨hcalm, hfp⟩ := hc c List.mem_cons_self
    have hslot := slot_evaluate (length_served hcalls) hfp hcalm hp
    have ih := ih hcalls
    rw [← served_concat] at hslot
    rw [List.find?_append]
    cases hfind : calls.find? fun c => p.ResolvedBy c.1 with
    | some b =>
      rw [hfind] at ih
      have hb := get?_eq_some.1 ih
      have hne : (served ps calls).slot i ≠ Hash.noFingerprint := by rw [hb.1]; exact hb.2
      rw [if_neg fun h => hne h.1] at hslot
      rw [get?_eq_some.2 ⟨hslot.trans hb.1, hb.2⟩]
      rfl
    | none =>
      rw [hfind] at ih
      have hnone := get?_eq_none.1 ih
      by_cases hres : p.ResolvedBy c.1
      · rw [if_pos ⟨hnone, hres⟩] at hslot
        rw [get?_eq_some.2 ⟨hslot, hfp⟩]
        simp [hres]
      · rw [if_neg fun h => hres h.2] at hslot
        rw [get?_eq_none.2 (hslot.trans hnone)]
        simp [hres]

/-! ## Which conditions are evaluated -/

/-- The condition of a property without a discovery is evaluated: if it raised a fault, the evaluation would. -/
theorem evaluate_set_raises {i : Nat} {p : Property σ} (hp : ps[i]? = some p) (hslot : d.slot i = Hash.noFingerprint)
    (hcalm : Calm ps state) (fp : Fingerprint) (f : Fault) :
    (d.evaluate (ps.set i { p with condition := fun _ => .error f }) state fp).fault = some f := by
  have hlt := (List.getElem?_eq_some_iff.1 hp).1
  refine evaluate_fault_iff.2 ⟨i, _, List.getElem?_set_self hlt, by rwa [Nat.zero_add], rfl, fun j hj q hq => ?_⟩
  rw [List.getElem?_set_ne (Nat.ne_of_gt hj)] at hq
  exact Or.inr (hcalm q (List.mem_of_getElem? hq))

theorem evaluateFrom_set (hfp : fp ≠ Hash.noFingerprint) (q : Property σ) (ps : List (Property σ)) (i k : Nat)
    (e : Evaluation) (h : e.discoveries.slot (k + i) ≠ Hash.noFingerprint) :
    evaluateFrom state fp ((ps.set i q).zipIdx k) e = evaluateFrom state fp (ps.zipIdx k) e := by
  induction ps generalizing i k e with
  | nil => rfl
  | cons p ps ih =>
    cases i with
    | zero =>
      have hskip : ∀ r : Property σ, evaluateOne state fp e r k = e := fun r => if_pos h
      rw [List.set_cons_zero, List.zipIdx_cons, List.zipIdx_cons, evaluateFrom, evaluateFrom, hskip, hskip]
    | succ i =>
      have hgrows : Grows e.discoveries (evaluateOne state fp e p k).discoveries := (Evaluated.one hfp e p k).grows
      have hslot : (evaluateOne state fp e p k).discoveries.slot (k + 1 + i) ≠ Hash.noFingerprint := by
        rw [Nat.add_assoc, Nat.add_comm 1, hgrows.2 _ h]
        exact h
      rw [List.set_cons_succ, List.zipIdx_cons, List.zipIdx_cons, evaluateFrom, evaluateFrom, ih i (k + 1) _ hslot]

/-- The condition of a property with a discovery is not: whatever it were, the evaluation would be the same. -/
theorem evaluate_set_discovered {i : Nat} (hslot : d.slot i ≠ Hash.noFingerprint) (hfp : fp ≠ Hash.noFingerprint)
    (q : Property σ) : d.evaluate (ps.set i q) state fp = d.evaluate ps state fp :=
  evaluateFrom_set hfp q ps i 0 _ (by rwa [Nat.zero_add])

/-! ## What evaluations add up to -/

theorem found_of (e : Evaluation) (expectation : Expectation) (message : Log.Message) (x : Expectation) :
    (e.found expectation message).findings.of x = e.findings.of x + if expectation = x then 1 else 0 := by
  cases expectation <;> cases x <;> rfl

theorem discovered_set {i n : Nat} {p : Property σ} (hp : ps[i]? = some p) (hlt : i < d.slots.length)
    (hslot : d.slot i = Hash.noFingerprint) (hfp : fp ≠ Hash.noFingerprint) (x : Expectation) :
    discovered ps ⟨d.slots.set i fp, n⟩ x = discovered ps d x + if p.expectation = x then 1 else 0 := by
  obtain ⟨hi, rfl⟩ := List.getElem?_eq_some_iff.1 hp
  have hzip : ps.zip (d.slots.set i fp) = (ps.zip d.slots).set i (ps[i], fp) := by
    refine List.ext_getElem (by simp) fun j _ _ => ?_
    rw [List.getElem_zip, List.getElem_set, List.getElem_set]
    split
    · subst j
      rfl
    · rw [List.getElem_zip]
  have hlen : i < (ps.zip d.slots).length := by
    rw [List.length_zip]
    omega
  unfold discovered
  dsimp only
  rw [hzip, List.countP_set hlen, List.getElem_zip, ← slot_eq_getElem hlt, hslot]
  simp [hfp]

theorem findings_evaluateFrom (ps : List (Property σ)) (state : σ) (hfp : fp ≠ Hash.noFingerprint) (x : Expectation) :
    ∀ (qs : List (Property σ × Nat)) (e : Evaluation), (∀ q ∈ qs, ps[q.2]? = some q.1) →
      e.discoveries.slots.length = ps.length →
      (evaluateFrom state fp qs e).findings.of x + discovered ps e.discoveries x =
        e.findings.of x + discovered ps (evaluateFrom state fp qs e).discoveries x
  | [], e, _, _ => rfl
  | (p, i) :: qs, e, hqs, hlen => by
    have hp : ps[i]? = some p := hqs (p, i) List.mem_cons_self
    have hlt : i < e.discoveries.slots.length := by
      rw [hlen]
      exact (List.getElem?_eq_some_iff.1 hp).1
    have hone : (evaluateOne state fp e p i).findings.of x + discovered ps e.discoveries x =
        e.findings.of x + discovered ps (evaluateOne state fp e p i).discoveries x := by
      rcases evaluateOne_cases state fp e p i with ⟨-, heq⟩ | ⟨hslot, ⟨f, -, heq⟩ | ⟨-, heq⟩ | ⟨-, heq⟩⟩
      · rw [heq]
      · rw [heq]
      · rw [heq]
      · rw [heq, found_of]
        have hset := discovered_set (n := e.discoveries.count + 1) hp hlt hslot hfp x
        show e.findings.of x + _ + _ = e.findings.of x + discovered ps ⟨e.discoveries.slots.set i fp, _⟩ x
        omega
    unfold evaluateFrom
    dsimp only
    split
    · exact hone
    · have hall := findings_evaluateFrom ps state hfp x qs (evaluateOne state fp e p i)
        (fun q hq => hqs q (List.mem_cons_of_mem _ hq)) ((Evaluated.one hfp e p i).grows.1.trans hlen)
      omega

/-- What an evaluation finds are the discoveries that it adds. -/
theorem findings_evaluate (state : σ) (hlen : d.slots.length = ps.length) (hfp : fp ≠ Hash.noFingerprint) (x : Expectation) :
    (d.evaluate ps state fp).findings.of x + discovered ps d x = discovered ps (d.evaluate ps state fp).discoveries x := by
  have hstart : (⟨0, 0⟩ : Findings).of x = 0 := by cases x <;> rfl
  have hall := findings_evaluateFrom ps state hfp x ps.zipIdx ⟨d, ⟨0, 0⟩, [], Option.none⟩
    (fun q hq => List.mk_mem_zipIdx_iff_getElem?.1 hq) hlen
  rwa [hstart, Nat.zero_add] at hall

theorem sum_outcomesFrom (ps : List (Property σ)) (calls : List (σ × Fingerprint))
    (hfps : ∀ c ∈ calls, c.2 ≠ Hash.noFingerprint) (hlen : d.slots.length = ps.length) (x : Expectation) :
    ((outcomesFrom ps d calls).map (·.of x)).sum + discovered ps d x =
      discovered ps (calls.foldl (fun d c => (d.evaluate ps c.1 c.2).discoveries) d) x := by
  induction calls generalizing d with
  | nil => exact Nat.zero_add _
  | cons c calls ih =>
    obtain ⟨hfp, hrest⟩ := List.forall_mem_cons.1 hfps
    have hone := findings_evaluate c.1 hlen hfp x
    have hall := ih hrest (length_evaluate c.1 hlen hfp)
    rw [outcomesFrom, List.map_cons, List.sum_cons, List.foldl_cons, ← hall, ← hone]
    omega

theorem discovered_none (ps : List (Property σ)) (n : Nat) (x : Expectation) : discovered ps (none n) x = 0 := by
  rw [discovered, List.countP_eq_zero]
  rintro ⟨p, fp⟩ hmem
  have hempty : fp = Hash.noFingerprint := List.eq_of_mem_replicate (List.of_mem_zip hmem).2
  simp [hempty]

/-- **What evaluations find** adds up to the discoveries. -/
theorem sum_outcomes {calls : List (σ × Fingerprint)} (h : Proper ps calls) (x : Expectation) :
    ((outcomes ps calls).map (·.of x)).sum = discovered ps (served ps calls) x := by
  have hsum := sum_outcomesFrom ps calls (fun c hc => (h c hc).2) (d := none ps.length) List.length_replicate x
  rwa [discovered_none, Nat.add_zero] at hsum

theorem counted_served {calls : List (σ × Fingerprint)} (h : Proper ps calls) : (served ps calls).Counted := by
  induction calls using List.reverseRecOn with
  | nil => exact counted_none _
  | append_singleton calls c ih =>
    obtain ⟨hcalls, hc⟩ := List.forall_mem_append.1 h
    rw [served_concat]
    exact (evaluate_summed c.1 (hc c List.mem_cons_self).2 (length_served hcalls) (ih hcalls)).1

theorem Counted.complete_iff_get? (h : d.Counted) (hlen : d.slots.length = ps.length) :
    d.complete = true ↔ ps ≠ [] ∧ ∀ i < ps.length, d.get? i ≠ Option.none := by
  rw [h.complete_iff, hlen, List.length_pos_iff]
  simp only [ne_eq, get?_eq_none]

/-! ## A sequence of evaluations -/

/-- What a sequence of evaluations records. -/
structure Recorded (ps : List (Property σ)) (calls : List (σ × Fingerprint)) : Prop where
  discovery : ∀ i p, ps[i]? = some p →
    (served ps calls).get? i = (calls.find? fun c => p.ResolvedBy c.1).map Prod.snd
  evaluated : ∀ before c after i p, calls = before ++ c :: after → ps[i]? = some p → (∀ b ∈ before, ¬ p.ResolvedBy b.1) →
    ∀ f, ((served ps before).evaluate (ps.set i { p with condition := fun _ => .error f }) c.1 c.2).fault = some f
  skipped : ∀ before c after i p, calls = before ++ c :: after → ps[i]? = some p → (∃ b ∈ before, p.ResolvedBy b.1) →
    ∀ condition, (served ps before).evaluate (ps.set i { p with condition }) c.1 c.2 =
      (served ps before).evaluate ps c.1 c.2
  violations : ((outcomes ps calls).map Findings.violations).sum = discovered ps (served ps calls) .always
  witnesses : ((outcomes ps calls).map Findings.witnesses).sum = discovered ps (served ps calls) .sometimes
  complete : (served ps calls).complete = true ↔ ps ≠ [] ∧ ∀ i < ps.length, (served ps calls).get? i ≠ Option.none

theorem recorded {calls : List (σ × Fingerprint)} (h : Proper ps calls) : Recorded ps calls := by
  have hbefore : ∀ {before c after}, calls = before ++ c :: after → Proper ps before ∧ Calm ps c.1 ∧
      c.2 ≠ Hash.noFingerprint := by
    rintro before c after rfl
    obtain ⟨hb, hc⟩ := List.forall_mem_append.1 h
    exact ⟨hb, hc c List.mem_cons_self⟩
  refine ⟨fun i p => get?_served h, fun before c after i p heq hp hnone f => ?_,
    fun before c after i p heq hp hsome condition => ?_, sum_outcomes h .always, sum_outcomes h .sometimes,
    (counted_served h).complete_iff_get? (length_served h)⟩
  · obtain ⟨hb, hcalm, -⟩ := hbefore heq
    refine evaluate_set_raises hp (get?_eq_none.1 ?_) hcalm c.2 f
    rw [get?_served hb hp, List.find?_eq_none.2 (by simpa using hnone)]
    rfl
  · obtain ⟨hb, -, hfp⟩ := hbefore heq
    refine evaluate_set_discovered (fun hslot => ?_) hfp _
    have hnone := get?_eq_none.2 hslot
    rw [get?_served hb hp, Option.map_eq_none_iff, List.find?_eq_none] at hnone
    obtain ⟨b, hmem, hres⟩ := hsome
    exact hnone b hmem (decide_eq_true hres)

end Discoveries

end StateSpace
