import StateSpace.Proofs.Search.Reasons

/-!
# Whatever should stop a search does

* `Alarm` : what should stop a search; `Alarm.Sounds m cfg s a` : it is the case; `Phase.Attends p a` : a worker in this
  phase is about to see it;
* `Heeded m cfg s` : every alarm that sounds has stopped the search, or some worker attends to it; kept by the steps of
  workers and by planting (`after_heeded`);
* `Unspent s` : a search that was told to stop, and met no fault, has entries left (`after_unspent`);
* `Reached.silent` : so no alarm sounds when everything was expanded.
-/

namespace StateSpace

variable {σ α : Type}

inductive Alarm where
  /-- Enough states are registered. -/
  | states
  /-- An `always` property is violated. -/
  | violation
  /-- All properties are resolved. -/
  | resolution

/-- A worker in this phase is about to see the alarm, as it has not noted its last discovery. -/
def Phase.Attends : Phase σ α → Alarm → Prop
  | .judging _ _ _, .states => True
  | .noting _ _ _ _, .states => True
  | .noting _ _ _ findings, .violation => 0 < findings.violations
  | .noting _ _ _ _, .resolution => True
  | _, _ => False

theorem Phase.not_attends {p : Phase σ α} (h : p.fresh = []) (a : Alarm) : ¬ p.Attends a := by
  cases p with
  | judging | noting | pushing => cases h
  | _ => exact id

def Alarm.Sounds (m : Model σ α) (cfg : Config σ) (s : Search σ α) : Alarm → Prop
  | .states => 0 < cfg.maxStates ∧ cfg.maxStates ≤ s.generated
  | .violation => cfg.stopOnViolation = true ∧ Search.Violated m s
  | .resolution => Search.Resolved m s

namespace Search

variable {m : Model σ α} {cfg : Config σ} {s s' : Search σ α} {g g' : Chronicle σ}

/-- The search was told to stop, or a worker attends to the alarm. -/
def Heeds (s : Search σ α) (a : Alarm) : Prop := s.stopReason ≠ none ∨ ∃ p ∈ s.workers, p.Attends a

def Heeded (m : Model σ α) (cfg : Config σ) (s : Search σ α) : Prop := ∀ a : Alarm, a.Sounds m cfg s → s.Heeds a

/-! ## Noting -/

theorem note_eq_none {speaker : Log.Speaker} {findings : Findings} (h : (s.note cfg speaker findings).stopReason = none) :
    s.stopReason = none ∧ ¬ (0 < findings.violations ∧ cfg.stopOnViolation = true) ∧ s.discoveries.complete = false ∧
      ¬ (0 < cfg.maxStates ∧ cfg.maxStates ≤ s.generated) := by
  rw [note_stopReason, Option.or_eq_none_iff, Option.or_eq_none_iff] at h
  obtain ⟨⟨hreason, hfindings⟩, hstates⟩ := h
  rw [ite_eq_right_iff] at hfindings hstates
  refine ⟨hreason, fun hv => ?_, ?_, fun hs => ?_⟩
  · cases hfindings (Or.inl hv)
  · rw [← Bool.not_eq_true]
    intro hcomplete
    cases hfindings (Or.inr hcomplete)
  · cases hstates hs

/-- A note stops the search if an alarm sounds that it sees. -/
theorem note_stops {a : Alarm} (h : a.Sounds m cfg s) (hlen : s.discoveries.slots.length = m.properties.length)
    (hcounted : s.discoveries.Counted) {speaker : Log.Speaker} {findings : Findings}
    (hviolation : a = .violation → 0 < findings.violations) : (s.note cfg speaker findings).stopReason ≠ none := by
  intro hnone
  obtain ⟨-, hv, hcomplete, hstates⟩ := note_eq_none hnone
  cases a with
  | states => exact hstates h
  | violation => exact hv ⟨hviolation rfl, h.1⟩
  | resolution =>
    have hall : s.discoveries.complete = true := by
      rw [hcounted.complete_iff, hlen]
      exact h
    rw [hall] at hcomplete
    cases hcomplete

/-- A violation was there before an evaluation, or is found by it. -/
theorem Violated.of_evaluate {state : σ} {fp : Fingerprint} (hfp : fp ≠ Hash.noFingerprint)
    (hd : s'.discoveries = (s.discoveries.evaluate m.properties state fp).discoveries) (h : Violated m s') :
    Violated m s ∨ 0 < (s.discoveries.evaluate m.properties state fp).findings.violations := by
  obtain ⟨i, p, hp, he, hi⟩ := h
  rw [hd] at hi
  by_cases hslot : s.discoveries.slot i = Hash.noFingerprint
  · right
    apply Discoveries.evaluate_violations state hfp hp he
    rwa [hslot]
  · exact Or.inl ⟨i, p, hp, he, hslot⟩

/-! ## Steps of workers -/

theorem sounds_congr (hd : s'.discoveries = s.discoveries) (hgen : s'.generated = s.generated) (a : Alarm) :
    a.Sounds m cfg s' ↔ a.Sounds m cfg s := by
  cases a with
  | states => simp only [Alarm.Sounds, hgen]
  | violation => simp only [Alarm.Sounds, Violated, hd]
  | resolution => simp only [Alarm.Sounds, Resolved, hd]

theorem Heeds.set {a : Alarm} (h : s.Heeds a) {w : Nat} {p q : Phase σ α} (hw : s.workers[w]? = some p)
    (hws : s'.workers = s.workers.set w q) (hp : p.Attends a → q.Attends a)
    (hr : s.stopReason ≠ none → s'.stopReason ≠ none) : s'.Heeds a := by
  rcases h with h | ⟨p', hp', ha⟩
  · exact Or.inl (hr h)
  · right
    rw [hws]
    rcases mem_set_of_mem q hw hp' with rfl | hmem
    · exact ⟨q, List.mem_set (List.getElem?_eq_some_iff.1 hw).1 q, hp ha⟩
    · exact ⟨p', hmem, ha⟩

theorem Heeds.enter {a : Alarm} {w : Nat} {p q : Phase σ α} (hw : s.workers[w]? = some p)
    (hws : s'.workers = s.workers.set w q) (hq : q.Attends a) : s'.Heeds a := by
  right
  rw [hws]
  exact ⟨q, List.mem_set (List.getElem?_eq_some_iff.1 hw).1 q, hq⟩

theorem Heeded.frame (h : Heeded m cfg s) {w : Nat} {p q : Phase σ α} (hw : s.workers[w]? = some p)
    (hws : s'.workers = s.workers.set w q) (hp : ∀ a, ¬ p.Attends a) (hd : s'.discoveries = s.discoveries)
    (hgen : s'.generated = s.generated) (hr : s'.stopReason = s.stopReason) : Heeded m cfg s' := by
  intro a ha
  have hheeds := h a ((sounds_congr hd hgen a).1 ha)
  exact hheeds.set hw hws (fun hatt => absurd hatt (hp a)) (by rw [hr]; exact id)

/-- **A step of a worker** keeps every alarm heeded. -/
theorem Transition.heeded {w : Nat} (hr : Reached m cfg s g) (hcounted : s.discoveries.Counted)
    (ht : Transition m cfg (some w) s g s' g') (h : Heeded m cfg s) : Heeded m cfg s' := by
  cases ht with
  | rest => exact h
  | start hw | visit hw | present hw | outside hw | deep hw | enumerate hw | complete hw | skip hw =>
    exact h.frame hw rfl (Phase.not_attends rfl) rfl rfl rfl
  | take hw hp | wait hw hp | leave hw hp =>
    exact h.frame hw rfl (Phase.not_attends (held_of_idle hp).2) rfl rfl rfl
  | known hw _ _ hs hb =>
    refine h.frame hw rfl (Phase.not_attends rfl) rfl ?_ rfl
    show _ = s.registry.size
    rw [hr.sound.size_eq, ← hb.length_eq]
    exact hs.size_eq
  | give hw =>
    refine h.frame hw rfl (fun a ha => ?_) rfl rfl rfl
    cases a <;> cases ha
  | @discover _ _ _ e a todo t registry hw =>
    intro a ha
    cases a with
    | states => exact Heeds.enter hw rfl trivial
    | violation => exact (h .violation ha).set hw rfl (fun hatt => by cases hatt) id
    | resolution => exact (h .resolution ha).set hw rfl (fun hatt => by cases hatt) id
  | @judge _ _ _ r e child todo ev hw hev =>
    obtain ⟨l, hl, rfl⟩ := hr.custody.mem_ledger hw (List.mem_cons_of_mem _ List.mem_cons_self)
    intro a ha
    cases a with
    | states => exact Heeds.enter hw rfl trivial
    | resolution => exact Heeds.enter hw rfl trivial
    | violation =>
      rcases ha.2.of_evaluate (s := s) (hr.fp_ne hl) (by rw [hev]) with hv | hpos
      · exact (h .violation ⟨ha.1, hv⟩).set hw rfl (fun hatt => by cases hatt) id
      · refine Heeds.enter hw rfl ?_
        rw [hev]
        exact hpos
  | @note _ _ _ r e child todo findings reason stop hw hn =>
    have hreason : (s.note cfg (.worker w) findings).stopReason = reason := by rw [hn]
    intro a ha
    have hsounds : a.Sounds m cfg s := (sounds_congr rfl rfl a).1 ha
    by_cases hnone : reason = none
    · -- had the worker attended to the alarm, it would have stopped the search
      refine (h a hsounds).set hw rfl (fun hatt => ?_) fun hstop => absurd (note_eq_none (hreason.trans hnone)).1 hstop
      refine absurd (hreason.trans hnone) (note_stops hsounds hr.judgement.length hcounted fun hv => ?_)
      rw [hv] at hatt
      exact hatt
    · exact Or.inl hnone
  | crash =>
    intro a _
    left
    simp

/-! ## Seeding -/

theorem plant_heeded {t : σ} {fp : Fingerprint} (hr : Reached m cfg s g) (hw : ∀ p ∈ s.workers, p = .starting)
    (hfp : fp ≠ Hash.noFingerprint) (hcounted : s.discoveries.Counted) (h : Heeded m cfg s)
    (hp : s.plant m cfg ⟨t, fp, 1⟩ = (.ok (), s')) : Heeded m cfg s' := by
  -- no worker has started, so whatever sounded has stopped the search
  have hstopped : ∀ a : Alarm, a.Sounds m cfg s → s.stopReason ≠ none := by
    intro a ha
    rcases h a ha with hstop | ⟨p, hp, hatt⟩
    · exact hstop
    · rw [hw p hp] at hatt
      exact absurd hatt (Phase.not_attends rfl a)
  rcases plant_cases hr.sound hfp hp with
    ⟨old, registry, -, hs, hb, rfl⟩ | ⟨registry, ev, r', -, hs, hb, hev, -, rfl⟩
  · have hsize : registry.size = s.registry.size := by rw [hs.size_eq, hr.sound.size_eq, hb.length_eq]
    intro a ha
    have hsounds : a.Sounds m cfg { s with registry } ↔ a.Sounds m cfg s := by
      apply sounds_congr
      · rfl
      · exact hsize
    exact Or.inl (hstopped a (hsounds.1 ha))
  · obtain ⟨hgrows, -⟩ := Discoveries.evaluate_spec t hfp hr.judgement.length
    obtain ⟨hcount, -⟩ := Discoveries.evaluate_summed t hfp hr.judgement.length hcounted
    rw [← hev] at hgrows hcount
    obtain ⟨reason, stop, r, hn, -⟩ := note_eq cfg .main ev.findings
      { s with registry, discoveries := ev.discoveries, records := r' }
    intro a ha
    left
    rw [hn] at ha ⊢
    have hsounds : a.Sounds m cfg { s with registry, discoveries := ev.discoveries, records := r' } :=
      (sounds_congr rfl rfl a).1 ha
    intro hnone
    have hquiet : (note cfg .main ev.findings
        { s with registry, discoveries := ev.discoveries, records := r' }).stopReason = none := by
      rw [hn]
      exact hnone
    refine note_stops hsounds (hgrows.1.trans hr.judgement.length) hcount (fun hviolation => ?_) hquiet
    subst hviolation
    rcases hsounds.2.of_evaluate (s := s) hfp (by rw [hev]) with hv | hpos
    · exact absurd (note_eq_none hquiet).1 (hstopped .violation ⟨hsounds.1, hv⟩)
    · rw [hev]
      exact hpos

theorem blank_heeded (m : Model σ α) (cfg : Config σ) : Heeded m cfg (blank m cfg) := by
  have hnone : ∀ i, ¬ (blank m cfg).discoveries.slot i ≠ Hash.noFingerprint := fun i hi => hi (Discoveries.slot_none _ i)
  intro a ha
  exfalso
  cases a with
  | states =>
    have hempty : (blank m cfg).generated = 0 := rfl
    rw [Alarm.Sounds, hempty] at ha
    omega
  | violation =>
    obtain ⟨-, i, -, -, -, hi⟩ := ha
    exact hnone i hi
  | resolution => exact hnone 0 (ha.2 0 ha.1)

/-- **In a run that is not cancelled every alarm is heeded.** -/
theorem after_heeded (hseed : (seed m cfg).1 = .ok ()) {moves : List Move} (hm : ∀ mv ∈ moves, mv ≠ .cancel) :
    Heeded m cfg (after m cfg moves) := by
  suffices h : Warranted m cfg (after m cfg moves) ∧ Heeded m cfg (after m cfg moves) from h.2
  apply after_induction (P := fun s => Warranted m cfg s ∧ Heeded m cfg s) _ _ _ _ hseed hm
  · exact ⟨blank_warranted m cfg, blank_heeded m cfg⟩
  · intro s g t s' hr hw _ h hp
    have hfp := fingerprint_ne m t
    exact ⟨plant_warranted hr hw hfp h.1 hp, plant_heeded hr hw hfp h.1.counted h.2 hp⟩
  · exact fun s r h => ⟨h.1.log r, fun a ha => h.2 a ((sounds_congr rfl rfl a).1 ha)⟩
  · exact fun s g w s' g' hr ht h => ⟨ht.warranted hr h.1, ht.heeded hr h.1.counted h.2⟩

/-! ## What is left -/

/-- A search that was told to stop, and met no fault, has entries left, or a worker that is about to push one. -/
def Unspent (s : Search σ α) : Prop :=
  s.stopReason ≠ none → s.fault ≠ none ∨ s.frontier.entries ≠ [] ∨ ∃ p ∈ s.workers, p.fresh ≠ []

theorem Unspent.set (h : Unspent s) {w : Nat} {p q : Phase σ α} (hw : s.workers[w]? = some p)
    (hws : s'.workers = s.workers.set w q) (hp : p.fresh ≠ [] → q.fresh ≠ []) (hr : s'.stopReason = s.stopReason)
    (hfault : s'.fault = s.fault) (hf : s'.frontier.entries = s.frontier.entries) : Unspent s' := by
  unfold Unspent
  rw [hr, hfault, hf, hws]
  intro hstop
  refine (h hstop).imp_right (Or.imp_right ?_)
  rintro ⟨p', hp', hfresh⟩
  rcases mem_set_of_mem q hw hp' with rfl | hmem
  · exact ⟨q, List.mem_set (List.getElem?_eq_some_iff.1 hw).1 q, hp hfresh⟩
  · exact ⟨p', hmem, hfresh⟩

theorem Unspent.enter {w : Nat} {p q : Phase σ α} (hw : s.workers[w]? = some p) (hws : s'.workers = s.workers.set w q)
    (hq : q.fresh ≠ []) : Unspent s' := by
  intro _
  right
  right
  rw [hws]
  exact ⟨q, List.mem_set (List.getElem?_eq_some_iff.1 hw).1 q, hq⟩

theorem ne_nil_of_perm_cons {β : Type} {x : β} {l l' : List β} (h : l.Perm (x :: l')) : l ≠ [] := by
  rintro rfl
  exact List.cons_ne_nil _ _ (List.nil_perm.1 h)

theorem Transition.unspent {w : Nat} (hr : Reached m cfg s g) (ht : Transition m cfg (some w) s g s' g') (h : Unspent s) :
    Unspent s' := by
  cases ht with
  | rest => exact h
  | start hw | visit hw | present hw | outside hw | deep hw | enumerate hw | complete hw | skip hw | known hw =>
    exact h.set hw rfl (fun hne => absurd rfl hne) rfl rfl rfl
  | wait hw hp | leave hw hp =>
    exact h.set hw rfl (fun hne => absurd (held_of_idle hp).2 hne) rfl rfl rfl
  | take hw hp hpop =>
    -- once it was told to stop a search hands out nothing
    intro hstop
    have hreq : s.frontier.stopRequested = true := by
      rw [hr.endings.requested, Option.isSome_iff_ne_none]
      exact hstop
    rw [Frontier.pop, if_pos hreq] at hpop
    cases hpop
  | discover hw | judge hw | note hw => exact Unspent.enter hw rfl (List.cons_ne_nil _ _)
  | @give _ _ _ e child todo hw =>
    intro _
    right
    left
    exact ne_nil_of_perm_cons (Frontier.entries_append (f := s.frontier.announce) (hr.worker_lt hw) child)
  | crash =>
    intro _
    left
    simp

theorem plant_unspent {t : σ} {fp : Fingerprint} (hr : Reached m cfg s g) (hfp : fp ≠ Hash.noFingerprint) (h : Unspent s)
    (hp : s.plant m cfg ⟨t, fp, 1⟩ = (.ok (), s')) : Unspent s' := by
  rcases plant_cases hr.sound hfp hp with ⟨old, registry, -, -, -, rfl⟩ | ⟨registry, ev, r', -, -, -, -, -, rfl⟩
  · exact h
  · obtain ⟨reason, stop, r, hn, -⟩ := note_eq cfg .main ev.findings
      { s with registry, discoveries := ev.discoveries, records := r' }
    rw [hn]
    have hlen := hr.length_workers
    have hpos : 0 < s.frontier.workers := by
      rw [hr.workers]
      omega
    intro _
    right
    left
    exact ne_nil_of_perm_cons (Frontier.entries_seed (f := s.frontier.flagged stop) hpos ⟨t, fp, 1⟩)

/-- **A run that is not cancelled leaves entries when it is told to stop.** -/
theorem after_unspent (hseed : (seed m cfg).1 = .ok ()) {moves : List Move} (hm : ∀ mv ∈ moves, mv ≠ .cancel) :
    Unspent (after m cfg moves) := by
  apply after_induction _ _ (fun s r h => h) _ hseed hm
  · exact fun hstop => absurd rfl hstop
  · exact fun s g t s' hr _ _ h hp => plant_unspent hr (fingerprint_ne m t) h hp
  · exact fun s g w s' g' hr ht h => ht.unspent hr h

/-- A search that expanded everything, and met no fault, was not told to stop. -/
theorem Reached.unstopped (hr : Reached m cfg s g) (h : Unspent s) (he : s.exhausted = true) (hf : s.fault = none) :
    s.stopReason = none := by
  obtain ⟨hdone, hpending, -⟩ := exhausted_iff.1 he
  by_contra hstop
  rcases h hstop with hfault | hentries | ⟨p, hp, hfresh⟩
  · exact hfault hf
  · have hcount := hr.custody.pending
    rw [hpending, UInt64.toNat_zero] at hcount
    exact hentries (List.length_eq_zero_iff.1 (by omega))
  · have hnone := List.flatMap_eq_nil_iff.1 (flatMap_of_done hdone Phase.fresh rfl) p hp
    exact hfresh hnone

/-- **No alarm sounds in a search that expanded everything.** -/
theorem Reached.silent (hr : Reached m cfg s g) (hh : Heeded m cfg s) (hu : Unspent s) (he : s.exhausted = true)
    (hf : s.fault = none) (a : Alarm) : ¬ a.Sounds m cfg s := by
  intro ha
  rcases hh a ha with hstop | ⟨p, hp, hatt⟩
  · exact hstop (hr.unstopped hu he hf)
  · obtain ⟨hdone, -, -⟩ := exhausted_iff.1 he
    exact Phase.not_attends (List.flatMap_eq_nil_iff.1 (flatMap_of_done hdone Phase.fresh rfl) p hp) a hatt

end Search

end StateSpace
