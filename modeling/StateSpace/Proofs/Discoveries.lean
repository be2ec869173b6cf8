import Mathlib.Data.List.Basic
import StateSpace.Discoveries

/-!
# What an evaluation records

* `Property.ResolvedBy p s` : the state `s` settles `p` by itself; `Property.OpenAt p s` : its condition was evaluated in `s`
  and settles nothing;
* `Discoveries.Judged d ps s` : every property of `ps` is discovered or open at `s`;
* `Evaluated` : what one evaluation does to the slots, kept by each property it looks at (`Evaluated.one`) and so by a
  whole evaluation (`evaluate_spec`);
* `FaultsFrom d state k ps f` : the first of the conditions to be evaluated that raises a fault raises `f`, which is the
  fault of the evaluation (`evaluate_fault_iff`);
* `Counted d` : the counter is the number of discoveries, so that it tells whether all were made (`Counted.complete_iff`);
* `evaluate_violations` : an `always` property does not get a discovery without a violation being found.
-/

namespace StateSpace

variable {σ : Type}

/-- The condition of the property has a value in the state that settles the property. -/
def Property.ResolvedBy (p : Property σ) (s : σ) : Prop :=
  ∃ holds, p.condition s = .ok holds ∧ p.expectation.resolvedBy holds = true

/-- The condition of the property has a value in the state that leaves the property open. -/
def Property.OpenAt (p : Property σ) (s : σ) : Prop :=
  ∃ holds, p.condition s = .ok holds ∧ p.expectation.resolvedBy holds = false

theorem Property.resolvedBy_always {p : Property σ} {s : σ} (h : p.expectation = .always) :
    p.ResolvedBy s ↔ p.condition s = .ok false := by
  simp [ResolvedBy, h, Expectation.resolvedBy]

theorem Property.resolvedBy_sometimes {p : Property σ} {s : σ} (h : p.expectation = .sometimes) :
    p.ResolvedBy s ↔ p.condition s = .ok true := by
  simp [ResolvedBy, h, Expectation.resolvedBy]

theorem Property.openAt_always {p : Property σ} {s : σ} (h : p.expectation = .always) :
    p.OpenAt s ↔ p.condition s = .ok true := by
  simp [OpenAt, h, Expectation.resolvedBy]

theorem Property.openAt_sometimes {p : Property σ} {s : σ} (h : p.expectation = .sometimes) :
    p.OpenAt s ↔ p.condition s = .ok false := by
  simp [OpenAt, h, Expectation.resolvedBy]

theorem Property.OpenAt.not_resolvedBy {p : Property σ} {s : σ} (h : p.OpenAt s) : ¬ p.ResolvedBy s := by
  obtain ⟨b, hb, ho⟩ := h
  rintro ⟨c, hc, hr⟩
  rw [hb] at hc
  cases hc
  rw [ho] at hr
  cases hr

namespace Discoveries

theorem slot_none (n i : Nat) : (none n).slot i = Hash.noFingerprint := by
  simp only [slot, none, List.getElem?_replicate]
  split <;> rfl

theorem get?_eq_some {d : Discoveries} {i : Nat} {fp : Fingerprint} :
    d.get? i = some fp ↔ d.slot i = fp ∧ fp ≠ Hash.noFingerprint := by
  unfold get?
  by_cases h : d.slot i = Hash.noFingerprint
  · rw [if_pos h]
    constructor
    · intro hn
      cases hn
    · rintro ⟨rfl, hne⟩
      exact absurd h hne
  · rw [if_neg h, Option.some.injEq]
    constructor
    · rintro rfl
      exact ⟨rfl, h⟩
    · exact fun hs => hs.1

theorem get?_eq_none {d : Discoveries} {i : Nat} : d.get? i = Option.none ↔ d.slot i = Hash.noFingerprint := by
  unfold get?
  by_cases h : d.slot i = Hash.noFingerprint <;> simp [h]

theorem slot_set (d : Discoveries) (i j : Nat) (fp : Fingerprint) (count : Nat) :
    (⟨d.slots.set i fp, count⟩ : Discoveries).slot j = if i = j ∧ i < d.slots.length then fp else d.slot j := by
  simp only [slot, List.getElem?_set]
  by_cases hij : i = j
  · subst hij
    by_cases hlt : i < d.slots.length
    · simp [hlt]
    · simp [hlt]
  · simp [hij]

theorem slot_eq_getElem {d : Discoveries} {i : Nat} (h : i < d.slots.length) : d.slot i = d.slots[i] := by
  rw [slot, List.getElem?_eq_getElem h]
  rfl

theorem countP_slots_set {d : Discoveries} {i : Nat} {fp : Fingerprint} (hi : i < d.slots.length)
    (hslot : d.slot i = Hash.noFingerprint) (hfp : fp ≠ Hash.noFingerprint) :
    (d.slots.set i fp).countP (· ≠ Hash.noFingerprint) = d.slots.countP (· ≠ Hash.noFingerprint) + 1 := by
  rw [List.countP_set hi, ← slot_eq_getElem hi, hslot]
  simp [hfp]

/-- Every property of the list is discovered, or is open at the state. -/
def Judged (d : Discoveries) (ps : List (Property σ)) (s : σ) : Prop :=
  ∀ (i : Nat) (p : Property σ), ps[i]? = some p → d.slot i ≠ Hash.noFingerprint ∨ p.OpenAt s

def Grows (d d' : Discoveries) : Prop :=
  d'.slots.length = d.slots.length ∧ ∀ i, d.slot i ≠ Hash.noFingerprint → d'.slot i = d.slot i

theorem Grows.refl (d : Discoveries) : Grows d d := ⟨rfl, fun _ _ => rfl⟩

theorem Grows.trans {d d' d'' : Discoveries} (h : Grows d d') (h' : Grows d' d'') : Grows d d'' := by
  refine ⟨h'.1.trans h.1, fun i hi => ?_⟩
  have h1 := h.2 i hi
  rw [h'.2 i (by rwa [h1]), h1]

theorem Judged.mono {d d' : Discoveries} {ps : List (Property σ)} {s : σ} (h : d.Judged ps s) (hg : Grows d d') :
    d'.Judged ps s := by
  intro i p hp
  rcases h i p hp with h | h
  · exact Or.inl (by rwa [hg.2 i h])
  · exact Or.inr h

/-! ## Evaluation -/

/-- What evaluating the properties `ps` on a state did, from `e` to `e'`. -/
structure Evaluated (state : σ) (fp : Fingerprint) (ps : List (Property σ × Nat)) (e e' : Evaluation) : Prop where
  grows : Grows e.discoveries e'.discoveries
  new : ∀ i, e'.discoveries.slot i ≠ e.discoveries.slot i →
    e'.discoveries.slot i = fp ∧ ∃ p, (p, i) ∈ ps ∧ p.ResolvedBy state
  judged : e'.fault = Option.none → ∀ p i, (p, i) ∈ ps → i < e.discoveries.slots.length →
    e'.discoveries.slot i ≠ Hash.noFingerprint ∨ p.OpenAt state

theorem settle_spec (d : Discoveries) (i : Nat) (fp : Fingerprint) (h : d.slot i = Hash.noFingerprint) :
    d.settle i fp = (true, ⟨d.slots.set i fp, d.count + 1⟩) := by
  simp [settle, exchange, tally, h]

/-- The four ways to look at a property: it is resolved already, its condition raises a fault, it stays open, or it is
newly resolved. -/
theorem evaluateOne_cases (state : σ) (fp : Fingerprint) (e : Evaluation) (p : Property σ) (i : Nat) :
    (e.discoveries.slot i ≠ Hash.noFingerprint ∧ evaluateOne state fp e p i = e) ∨
    (e.discoveries.slot i = Hash.noFingerprint ∧
      ((∃ f, p.condition state = .error f ∧ evaluateOne state fp e p i = { e with fault := some f }) ∨
       (p.OpenAt state ∧ evaluateOne state fp e p i = e) ∨
       (p.ResolvedBy state ∧ evaluateOne state fp e p i =
          { e with discoveries := ⟨e.discoveries.slots.set i fp, e.discoveries.count + 1⟩ }.found p.expectation
            (.resolved p.name p.expectation fp)))) := by
  unfold evaluateOne
  by_cases hslot : e.discoveries.slot i = Hash.noFingerprint
  · refine Or.inr ⟨hslot, ?_⟩
    rw [if_neg (by simpa using hslot), settle_spec _ _ fp hslot]
    cases hc : p.condition state with
    | error f => exact Or.inl ⟨f, rfl, rfl⟩
    | ok holds =>
      by_cases hr : p.expectation.resolvedBy holds = true
      · exact Or.inr (Or.inr ⟨⟨holds, hc, hr⟩, if_pos hr⟩)
      · exact Or.inr (Or.inl ⟨⟨holds, hc, by simpa using hr⟩, if_neg hr⟩)
  · exact Or.inl ⟨hslot, if_pos hslot⟩

theorem Evaluated.one {state : σ} {fp : Fingerprint} (hfp : fp ≠ Hash.noFingerprint) (e : Evaluation)
    (p : Property σ) (i : Nat) : Evaluated state fp [(p, i)] e (evaluateOne state fp e p i) := by
  have hmem : ∀ q j, (q, j) ∈ [(p, i)] → q = p ∧ j = i := by
    intro q j hq
    rwa [List.mem_singleton, Prod.mk.injEq] at hq
  rcases evaluateOne_cases state fp e p i with ⟨hslot, heq⟩ | ⟨hslot, ⟨f, -, heq⟩ | ⟨hopen, heq⟩ | ⟨hres, heq⟩⟩
  · rw [heq]
    refine ⟨Grows.refl _, fun j h => absurd rfl h, fun _ q j hq _ => ?_⟩
    obtain ⟨rfl, rfl⟩ := hmem q j hq
    exact Or.inl hslot
  · rw [heq]
    refine ⟨Grows.refl _, fun j h => absurd rfl h, fun hf => ?_⟩
    cases hf
  · rw [heq]
    refine ⟨Grows.refl _, fun j h => absurd rfl h, fun _ q j hq _ => ?_⟩
    obtain ⟨rfl, rfl⟩ := hmem q j hq
    exact Or.inr hopen
  · have hslots : ∀ j, (evaluateOne state fp e p i).discoveries.slot j =
        if i = j ∧ i < e.discoveries.slots.length then fp else e.discoveries.slot j := by
      intro j
      rw [heq]
      exact slot_set e.discoveries i j fp _
    refine ⟨⟨?_, fun j hj => ?_⟩, fun j hj => ?_, fun _ q j hq hlt => ?_⟩
    · rw [heq]
      simp [Evaluation.found]
    · rw [hslots, if_neg]
      rintro ⟨rfl, -⟩
      exact hj hslot
    · rw [hslots] at hj ⊢
      by_cases hij : i = j ∧ i < e.discoveries.slots.length
      · rw [if_pos hij, ← hij.1]
        exact ⟨rfl, p, List.mem_singleton_self _, hres⟩
      · rw [if_neg hij] at hj
        exact absurd rfl hj
    · obtain ⟨rfl, rfl⟩ := hmem q j hq
      left
      rwa [hslots, if_pos ⟨rfl, hlt⟩]

theorem Evaluated.from {state : σ} {fp : Fingerprint} (hfp : fp ≠ Hash.noFingerprint) :
    ∀ (ps : List (Property σ × Nat)) (e : Evaluation), Evaluated state fp ps e (evaluateFrom state fp ps e)
  | [], e => ⟨Grows.refl _, fun i h => absurd rfl h, fun _ p i h => by cases h⟩
  | (p, i) :: ps, e => by
    have hone : Evaluated state fp [(p, i)] e (evaluateOne state fp e p i) := Evaluated.one hfp e p i
    unfold evaluateFrom
    cases hf : (evaluateOne state fp e p i).fault with
    | some f =>
      rw [if_pos (by simp [hf])]
      refine ⟨hone.grows, fun j hj => ?_, fun hn => ?_⟩
      · obtain ⟨h1, q, hq, hr⟩ := hone.new j hj
        exact ⟨h1, q, List.mem_cons.2 (Or.inl (List.mem_singleton.1 hq)), hr⟩
      · rw [hf] at hn
        cases hn
    | none =>
      rw [if_neg (by simp [hf])]
      have hrest : Evaluated state fp ps (evaluateOne state fp e p i) _ := Evaluated.from hfp ps _
      refine ⟨hone.grows.trans hrest.grows, fun j hj => ?_, fun hn q j hq hlt => ?_⟩
      · -- the slot changed at the first property or at a later one
        by_cases h1 : (evaluateOne state fp e p i).discoveries.slot j = e.discoveries.slot j
        · obtain ⟨h2, q, hq, hr⟩ := hrest.new j (by rwa [h1])
          exact ⟨h2, q, List.mem_cons_of_mem _ hq, hr⟩
        · obtain ⟨h2, q, hq, hr⟩ := hone.new j h1
          refine ⟨?_, q, List.mem_cons.2 (Or.inl (List.mem_singleton.1 hq)), hr⟩
          rw [hrest.grows.2 j (by rwa [h2]), h2]
      · rcases List.mem_cons.1 hq with hq | hq
        · rcases hone.judged hf q j (List.mem_singleton.2 hq) hlt with h | h
          · exact Or.inl (by rwa [hrest.grows.2 j h])
          · exact Or.inr h
        · exact hrest.judged hn q j hq (by rw [hone.grows.1]; exact hlt)

/-- **One evaluation**: discoveries stay, a new one is the state's fingerprint and rests on a property it resolves, and
unless a fault was raised the state is judged on every property. -/
theorem evaluate_spec {d : Discoveries} {ps : List (Property σ)} (state : σ) {fp : Fingerprint}
    (hfp : fp ≠ Hash.noFingerprint) (hlen : d.slots.length = ps.length) :
    Grows d (d.evaluate ps state fp).discoveries ∧
    (∀ i, (d.evaluate ps state fp).discoveries.slot i ≠ d.slot i →
      (d.evaluate ps state fp).discoveries.slot i = fp ∧ ∃ p, ps[i]? = some p ∧ p.ResolvedBy state) ∧
    ((d.evaluate ps state fp).fault = Option.none → (d.evaluate ps state fp).discoveries.Judged ps state) := by
  have h : Evaluated state fp ps.zipIdx ⟨d, ⟨0, 0⟩, [], Option.none⟩ (d.evaluate ps state fp) :=
    Evaluated.from hfp ps.zipIdx _
  refine ⟨h.grows, fun i hi => ?_, fun hf i p hp => ?_⟩
  · obtain ⟨h1, p, hp, hr⟩ := h.new i hi
    exact ⟨h1, p, List.mk_mem_zipIdx_iff_getElem?.1 hp, hr⟩
  · refine h.judged hf p i (List.mk_mem_zipIdx_iff_getElem?.2 hp) ?_
    show i < d.slots.length
    rw [hlen]
    exact (List.getElem?_eq_some_iff.1 hp).1

/-! ## Faults -/

/-- The condition of the property at a position is not evaluated, as it is resolved, or has a value. -/
def Harmless (d : Discoveries) (state : σ) (p : Property σ) (i : Nat) : Prop :=
  d.slot i ≠ Hash.noFingerprint ∨ ∃ holds, p.condition state = .ok holds

/-- Among the properties `ps`, which stand at the positions from `k` on, the first that is not harmless raises the fault. -/
def FaultsFrom (d : Discoveries) (state : σ) (k : Nat) (ps : List (Property σ)) (f : Fault) : Prop :=
  ∃ i p, ps[i]? = some p ∧ d.slot (k + i) = Hash.noFingerprint ∧ p.condition state = .error f ∧
    ∀ j < i, ∀ q, ps[j]? = some q → d.Harmless state q (k + j)

theorem faultsFrom_nil {d : Discoveries} {state : σ} {k : Nat} {f : Fault} : ¬ d.FaultsFrom state k [] f := by
  rintro ⟨i, p, hp, -⟩
  rw [List.getElem?_nil] at hp
  cases hp

theorem faultsFrom_cons {d : Discoveries} {state : σ} {k : Nat} {p : Property σ} {ps : List (Property σ)} {f : Fault} :
    d.FaultsFrom state k (p :: ps) f ↔ d.slot k = Hash.noFingerprint ∧ p.condition state = .error f ∨
      d.Harmless state p k ∧ d.FaultsFrom state (k + 1) ps f := by
  constructor
  · rintro ⟨i, q, hq, hslot, hc, hbefore⟩
    cases i with
    | zero =>
      cases hq
      exact Or.inl ⟨hslot, hc⟩
    | succ i =>
      refine Or.inr ⟨hbefore 0 (Nat.succ_pos i) p rfl, i, q, hq, ?_, hc, fun j hj r hr => ?_⟩
      · rw [Nat.add_right_comm, Nat.add_assoc]
        exact hslot
      · rw [Nat.add_right_comm, Nat.add_assoc]
        exact hbefore (j + 1) (Nat.succ_lt_succ hj) r hr
  · rintro (⟨hslot, hc⟩ | ⟨hp, i, q, hq, hslot, hc, hbefore⟩)
    · exact ⟨0, p, rfl, hslot, hc, fun j hj => absurd hj (Nat.not_lt_zero j)⟩
    · refine ⟨i + 1, q, hq, ?_, hc, fun j hj r hr => ?_⟩
      · rwa [Nat.add_right_comm, Nat.add_assoc] at hslot
      · cases j with
        | zero =>
          cases hr
          exact hp
        | succ j =>
          have hj' := hbefore j (Nat.lt_of_succ_lt_succ hj) r hr
          rwa [Nat.add_right_comm, Nat.add_assoc] at hj'

theorem FaultsFrom.congr {d d' : Discoveries} {state : σ} {k : Nat} {ps : List (Property σ)} {f : Fault}
    (hd : ∀ i, k ≤ i → d'.slot i = d.slot i) : d'.FaultsFrom state k ps f ↔ d.FaultsFrom state k ps f := by
  have hslot : ∀ i, d'.slot (k + i) = d.slot (k + i) := fun i => hd _ (Nat.le_add_right k i)
  unfold FaultsFrom Harmless
  simp only [hslot]

theorem evaluateFrom_fault_iff (state : σ) (fp : Fingerprint) {f : Fault} (ps : List (Property σ)) (k : Nat)
    (e : Evaluation) (he : e.fault = Option.none) :
    (evaluateFrom state fp (ps.zipIdx k) e).fault = some f ↔ e.discoveries.FaultsFrom state k ps f := by
  induction ps generalizing k e with
  | nil =>
    rw [List.zipIdx_nil, evaluateFrom, he]
    simp [faultsFrom_nil]
  | cons p ps ih =>
    -- the rest of the evaluation sees the slots after `k` as they were
    have hrest : ∀ e' : Evaluation, evaluateOne state fp e p k = e' → e'.fault = Option.none →
        (∀ i, k + 1 ≤ i → e'.discoveries.slot i = e.discoveries.slot i) → e.discoveries.Harmless state p k →
        ((evaluateFrom state fp ((p :: ps).zipIdx k) e).fault = some f ↔ e.discoveries.FaultsFrom state k (p :: ps) f) := by
      intro e' heq he' hslots hp
      have hno : ¬ (e.discoveries.slot k = Hash.noFingerprint ∧ p.condition state = .error f) := by
        rintro ⟨hslot, hc⟩
        rcases hp with hp | ⟨holds, hholds⟩
        · exact hp hslot
        · rw [hc] at hholds
          cases hholds
      rw [List.zipIdx_cons, evaluateFrom, heq, if_neg (by simp [he']), ih (k + 1) e' he', FaultsFrom.congr hslots,
        faultsFrom_cons]
      simp [hno, hp]
    rcases evaluateOne_cases state fp e p k with ⟨hslot, heq⟩ | ⟨hslot, ⟨g, hg, heq⟩ | ⟨hopen, heq⟩ | ⟨hres, heq⟩⟩
    · exact hrest e heq he (fun _ _ => rfl) (Or.inl hslot)
    · have hharm : ¬ e.discoveries.Harmless state p k := by
        rintro (hne | ⟨holds, hholds⟩)
        · exact hne hslot
        · rw [hg] at hholds
          cases hholds
      rw [List.zipIdx_cons, evaluateFrom, heq, faultsFrom_cons]
      simp [hg, hslot, hharm]
    · obtain ⟨holds, hholds, -⟩ := hopen
      exact hrest e heq he (fun _ _ => rfl) (Or.inr ⟨holds, hholds⟩)
    · obtain ⟨holds, hholds, -⟩ := hres
      refine hrest _ heq he (fun i hi => ?_) (Or.inr ⟨holds, hholds⟩)
      refine (slot_set e.discoveries k i fp _).trans (if_neg ?_)
      omega

/-- **An evaluation raises the fault of the first condition that it evaluates and that raises one.** -/
theorem evaluate_fault_iff {d : Discoveries} {ps : List (Property σ)} {state : σ} {fp : Fingerprint} {f : Fault} :
    (d.evaluate ps state fp).fault = some f ↔ d.FaultsFrom state 0 ps f :=
  evaluateFrom_fault_iff state fp ps 0 ⟨d, ⟨0, 0⟩, [], Option.none⟩ rfl

theorem evaluate_fault {d : Discoveries} {ps : List (Property σ)} {state : σ}
    (h : ∀ p ∈ ps, ∃ holds, p.condition state = .ok holds) (fp : Fingerprint) :
    (d.evaluate ps state fp).fault = Option.none := by
  cases hf : (d.evaluate ps state fp).fault with
  | none => rfl
  | some f =>
    obtain ⟨i, p, hp, -, hc, -⟩ := evaluate_fault_iff.1 hf
    obtain ⟨holds, hholds⟩ := h p (List.mem_of_getElem? hp)
    rw [hc] at hholds
    cases hholds

/-! ## Counting -/

/-- The counter is the number of properties with a discovery. -/
def Counted (d : Discoveries) : Prop := d.count = d.slots.countP (· ≠ Hash.noFingerprint)

theorem counted_none (n : Nat) : (none n).Counted := by
  simp [Counted, none, List.countP_replicate]

theorem Counted.complete_iff {d : Discoveries} (h : d.Counted) :
    d.complete = true ↔ 0 < d.slots.length ∧ ∀ i < d.slots.length, d.slot i ≠ Hash.noFingerprint := by
  have hall : (∀ fp ∈ d.slots, fp ≠ Hash.noFingerprint) ↔ ∀ i < d.slots.length, d.slot i ≠ Hash.noFingerprint := by
    constructor
    · intro hfp i hi
      rw [slot_eq_getElem hi]
      exact hfp _ (List.getElem_mem hi)
    · intro hslot fp hmem
      obtain ⟨i, hi, rfl⟩ := List.getElem_of_mem hmem
      rw [← slot_eq_getElem hi]
      exact hslot i hi
  rw [complete, h, Bool.and_eq_true, beq_iff_eq, List.countP_eq_length, ← hall]
  simp [List.length_pos_iff]

/-- What an evaluation has added up while it looked at properties among `ps`. -/
structure Summed (ps : List (Property σ × Nat)) (e : Evaluation) : Prop where
  counted : e.discoveries.Counted
  violated : 0 < e.findings.violations →
    ∃ p i, (p, i) ∈ ps ∧ p.expectation = .always ∧ e.discoveries.slot i ≠ Hash.noFingerprint

theorem Summed.one {state : σ} {fp : Fingerprint} (hfp : fp ≠ Hash.noFingerprint) {ps : List (Property σ × Nat)}
    {e : Evaluation} {p : Property σ} {i : Nat} (hp : (p, i) ∈ ps) (hi : i < e.discoveries.slots.length)
    (h : Summed ps e) : Summed ps (evaluateOne state fp e p i) := by
  have hgrows : Grows e.discoveries (evaluateOne state fp e p i).discoveries := (Evaluated.one hfp e p i).grows
  rcases evaluateOne_cases state fp e p i with ⟨-, heq⟩ | ⟨hslot, ⟨f, -, heq⟩ | ⟨-, heq⟩ | ⟨-, heq⟩⟩
  · rwa [heq]
  · rw [heq]
    exact ⟨h.counted, h.violated⟩
  · rwa [heq]
  · -- the slot was empty, and is the only one that changes
    have hnew : (evaluateOne state fp e p i).discoveries.slot i = fp := by
      rw [heq]
      exact (slot_set e.discoveries i i fp _).trans (if_pos ⟨rfl, hi⟩)
    refine ⟨?_, fun hpos => ?_⟩
    · rw [heq]
      show e.discoveries.count + 1 = (e.discoveries.slots.set i fp).countP _
      rw [countP_slots_set hi hslot hfp, h.counted]
    · cases he : p.expectation with
      | always => exact ⟨p, i, hp, he, by rwa [hnew]⟩
      | sometimes =>
        rw [heq, he] at hpos
        obtain ⟨q, j, hq, hqe, hj⟩ := h.violated hpos
        exact ⟨q, j, hq, hqe, by rwa [hgrows.2 j hj]⟩

theorem Summed.from {state : σ} {fp : Fingerprint} (hfp : fp ≠ Hash.noFingerprint) {ps : List (Property σ × Nat)} :
    ∀ (qs : List (Property σ × Nat)) (e : Evaluation), (∀ q ∈ qs, q ∈ ps ∧ q.2 < e.discoveries.slots.length) →
      Summed ps e → Summed ps (evaluateFrom state fp qs e)
  | [], e, _, h => h
  | (p, i) :: qs, e, hq, h => by
    obtain ⟨hp, hi⟩ := hq (p, i) List.mem_cons_self
    have hone : Summed ps (evaluateOne state fp e p i) := Summed.one hfp hp hi h
    unfold evaluateFrom
    dsimp only
    split
    · exact hone
    · refine Summed.from hfp qs _ (fun q hmem => ?_) hone
      rw [(Evaluated.one hfp e p i).grows.1]
      exact hq q (List.mem_cons_of_mem _ hmem)

/-- An evaluation keeps count, and finds a violation only where it leaves an `always` property discovered. -/
theorem evaluate_summed {d : Discoveries} {ps : List (Property σ)} (state : σ) {fp : Fingerprint}
    (hfp : fp ≠ Hash.noFingerprint) (hlen : d.slots.length = ps.length) (hd : d.Counted) :
    (d.evaluate ps state fp).discoveries.Counted ∧ (0 < (d.evaluate ps state fp).findings.violations →
      ∃ i p, ps[i]? = some p ∧ p.expectation = .always ∧
        (d.evaluate ps state fp).discoveries.slot i ≠ Hash.noFingerprint) := by
  have hstart : Summed ps.zipIdx ⟨d, ⟨0, 0⟩, [], Option.none⟩ := ⟨hd, fun hpos => absurd hpos (Nat.lt_irrefl 0)⟩
  have h : Summed ps.zipIdx (d.evaluate ps state fp) := by
    refine Summed.from hfp ps.zipIdx _ (fun q hq => ⟨hq, ?_⟩) hstart
    show q.2 < d.slots.length
    rw [hlen]
    exact (List.getElem?_eq_some_iff.1 (List.mk_mem_zipIdx_iff_getElem?.1 hq)).1
  refine ⟨h.counted, fun hpos => ?_⟩
  obtain ⟨p, i, hp, he, hslot⟩ := h.violated hpos
  exact ⟨i, p, List.mk_mem_zipIdx_iff_getElem?.1 hp, he, hslot⟩

/-! ## Violations -/

theorem evaluateOne_violations (state : σ) (fp : Fingerprint) (e : Evaluation) (p : Property σ) (i : Nat) :
    e.findings.violations ≤ (evaluateOne state fp e p i).findings.violations ∧
    (p.expectation = .always → (evaluateOne state fp e p i).discoveries ≠ e.discoveries →
      e.findings.violations < (evaluateOne state fp e p i).findings.violations) := by
  rcases evaluateOne_cases state fp e p i with ⟨-, heq⟩ | ⟨-, ⟨f, -, heq⟩ | ⟨-, heq⟩ | ⟨-, heq⟩⟩
  · rw [heq]
    exact ⟨Nat.le_refl _, fun _ hne => absurd rfl hne⟩
  · rw [heq]
    exact ⟨Nat.le_refl _, fun _ hne => absurd rfl hne⟩
  · rw [heq]
    exact ⟨Nat.le_refl _, fun _ hne => absurd rfl hne⟩
  · rw [heq]
    cases he : p.expectation with
    | always => exact ⟨Nat.le_succ _, fun _ _ => Nat.lt_succ_self _⟩
    | sometimes =>
      refine ⟨Nat.le_refl _, fun hno => ?_⟩
      cases hno

theorem evaluateFrom_violations (state : σ) {fp : Fingerprint} (hfp : fp ≠ Hash.noFingerprint) :
    ∀ (ps : List (Property σ × Nat)) (e : Evaluation),
      e.findings.violations ≤ (evaluateFrom state fp ps e).findings.violations ∧
      ∀ j, (∀ p, (p, j) ∈ ps → p.expectation = .always) →
        (evaluateFrom state fp ps e).discoveries.slot j ≠ e.discoveries.slot j →
        e.findings.violations < (evaluateFrom state fp ps e).findings.violations
  | [], e => ⟨Nat.le_refl _, fun j _ hne => absurd rfl hne⟩
  | (p, i) :: ps, e => by
    obtain ⟨hle, hlt⟩ := evaluateOne_violations state fp e p i
    -- a slot that changes at the first property is its own
    have hfirst : ∀ j, (∀ q, (q, j) ∈ (p, i) :: ps → q.expectation = .always) →
        (evaluateOne state fp e p i).discoveries.slot j ≠ e.discoveries.slot j →
        e.findings.violations < (evaluateOne state fp e p i).findings.violations := by
      intro j hj hne
      obtain ⟨-, q, hq, -⟩ := (Evaluated.one hfp e p i).new j hne
      obtain ⟨rfl, rfl⟩ := Prod.mk.inj (List.mem_singleton.1 hq)
      refine hlt (hj _ List.mem_cons_self) fun heq => hne ?_
      rw [heq]
    unfold evaluateFrom
    dsimp only
    split
    · exact ⟨hle, hfirst⟩
    · obtain ⟨hle', hlt'⟩ := evaluateFrom_violations state hfp ps (evaluateOne state fp e p i)
      refine ⟨Nat.le_trans hle hle', fun j hj hne => ?_⟩
      by_cases hsame : (evaluateOne state fp e p i).discoveries.slot j = e.discoveries.slot j
      · have hlater := hlt' j (fun q hq => hj q (List.mem_cons_of_mem _ hq)) (by rwa [hsame])
        omega
      · have hnow := hfirst j hj hsame
        omega

theorem evaluate_violations {d : Discoveries} {ps : List (Property σ)} (state : σ) {fp : Fingerprint}
    (hfp : fp ≠ Hash.noFingerprint) {i : Nat} {p : Property σ} (hp : ps[i]? = some p) (he : p.expectation = .always)
    (hne : (d.evaluate ps state fp).discoveries.slot i ≠ d.slot i) : 0 < (d.evaluate ps state fp).findings.violations := by
  refine (evaluateFrom_violations state hfp ps.zipIdx ⟨d, ⟨0, 0⟩, [], Option.none⟩).2 i (fun q hq => ?_) hne
  rw [List.mk_mem_zipIdx_iff_getElem?, hp] at hq
  rwa [← Option.some.inj hq]

end Discoveries

end StateSpace
