import StateSpace.Proofs.Search.Coverage

/-!
# Why a search stops

* `Violated m s`, `Resolved m s` : an `always` property has a discovery; there are properties, and all have one;
* `Warrants m cfg s r` : what has to be the case for the search to stop for the reason `r`;
* `seed_induction`, `after_induction` : what planting keeps holds when the workers start, and if their steps keep it too, in
  every run that is not cancelled; `seed_keeps` : the fields that planting does not change;
* `Warranted m cfg s` : the reason to stop, if there is one, is warranted; kept by the steps of workers
  (`Transition.warranted`) and by planting (`plant_warranted`), so by every run that is not cancelled (`after_warranted`);
* `check_unstopped`, `check_exhausts` : nothing stops a single worker without bounds on a model whose `always` properties
  hold, so it explores all of it.
-/

namespace StateSpace

variable {σ α : Type}

/-- The violations that a worker has found and not noted. -/
def Phase.violations : Phase σ α → Nat
  | .noting _ _ _ findings => findings.violations
  | _ => 0

/-- The reachable states are as the property expects. -/
def Model.Meets (m : Model σ α) (p : Property σ) : Prop :=
  match p.expectation with
  | .always => ∀ t, m.Reachable t → p.condition t = .ok true
  | .sometimes => ∃ t, m.Reachable t ∧ p.condition t = .ok true

namespace Search

/-- An `always` property has a discovery. -/
def Violated (m : Model σ α) (s : Search σ α) : Prop :=
  ∃ i p, m.properties[i]? = some p ∧ p.expectation = .always ∧ s.discoveries.slot i ≠ Hash.noFingerprint

/-- There are properties, and each has a discovery. -/
def Resolved (m : Model σ α) (s : Search σ α) : Prop :=
  0 < m.properties.length ∧ ∀ i < m.properties.length, s.discoveries.slot i ≠ Hash.noFingerprint

/-- What has to be the case for a reason to stop. -/
def Warrants (m : Model σ α) (cfg : Config σ) (s : Search σ α) : StopReason → Prop
  | .stopped => cfg.stopOnViolation = true ∧ Violated m s ∨ Resolved m s
  | .boundReached => 0 < cfg.maxStates ∧ cfg.maxStates ≤ s.generated
  | .error => s.fault ≠ none

/-- The discoveries are counted, the violations that a worker is about to note are among them, and the reason to stop is
warranted. -/
structure Warranted (m : Model σ α) (cfg : Config σ) (s : Search σ α) : Prop where
  counted : s.discoveries.Counted
  found : ∀ p ∈ s.workers, 0 < p.violations → Violated m s
  reason : ∀ r, s.stopReason = some r → Warrants m cfg s r

variable {m : Model σ α} {cfg : Config σ} {s s' : Search σ α} {g g' : Chronicle σ}

/-! ## Runs that are not cancelled -/

theorem seedFrom_induction {P : Search σ α → Prop}
    (hplant : ∀ s g t s', Reached m cfg s g → (∀ p ∈ s.workers, p = .starting) → t ∈ m.initStates → P s →
      s.plant m cfg ⟨t, m.fingerprint t, 1⟩ = (.ok (), s') → P s')
    (rest : List σ) (hr : Reached m cfg s g) (hw : ∀ p ∈ s.workers, p = .starting) (hi : ∀ t ∈ rest, t ∈ m.initStates)
    (h : P s) (hs : seedFrom m cfg rest s = (.ok (), s')) : P s' := by
  induction rest generalizing s g with
  | nil =>
    cases hs
    exact h
  | cons t rest ih =>
    rw [seedFrom] at hs
    cases hp : s.plant m cfg ⟨t, m.fingerprint t, 1⟩ with
    | mk outcome s₁ =>
      rw [hp] at hs
      cases outcome with
      | error f => cases hs
      | ok u =>
        have ht := hi t List.mem_cons_self
        obtain ⟨g₁, htr, hws, -⟩ := plant_transition g hr.sound hw ht rfl hp
        exact ih (hr.next htr) (by rwa [hws]) (fun t' ht' => hi t' (List.mem_cons_of_mem _ ht'))
          (hplant s g t s₁ hr hw ht h hp) hs

/-- What holds of a blank search, and is kept by planting initial states and by the log, holds when the workers start. -/
theorem seed_induction {P : Search σ α → Prop} (hblank : P (blank m cfg))
    (hplant : ∀ s g t s', Reached m cfg s g → (∀ p ∈ s.workers, p = .starting) → t ∈ m.initStates → P s →
      s.plant m cfg ⟨t, m.fingerprint t, 1⟩ = (.ok (), s') → P s')
    (hlog : ∀ s r, P s → P { s with records := r }) (hseed : (seed m cfg).1 = .ok ()) : P (seed m cfg).2 := by
  unfold seed at hseed ⊢
  cases hs : seedFrom m cfg m.initStates (blank m cfg) with
  | mk outcome s =>
    rw [hs] at hseed
    cases outcome with
    | error f => cases hseed
    | ok u =>
      apply hlog
      exact seedFrom_induction hplant m.initStates .blank (fun p hp => List.eq_of_mem_replicate hp) (fun t ht => ht)
        hblank hs

/-- What does not depend on the fields that planting changes is as in a blank search when the workers start. -/
theorem seed_keeps {β : Type} (f : Search σ α → β)
    (hf : ∀ (s : Search σ α) registry discoveries stopReason frontier records,
      f { s with registry, discoveries, stopReason, frontier, records } = f s)
    (hseed : (seed m cfg).1 = .ok ()) : f (seed m cfg).2 = f (blank m cfg) := by
  apply seed_induction (P := fun s => f s = f (blank m cfg)) rfl _ _ hseed
  · intro s g t s' hr _ _ h hp
    rcases plant_cases hr.sound (fingerprint_ne m t) hp with ⟨-, -, -, -, -, rfl⟩ | ⟨registry, ev, r', -, -, -, -, -, rfl⟩
    · rw [← h]
      exact hf s _ _ _ _ _
    · obtain ⟨reason, stop, r, hn, -⟩ := note_eq cfg .main ev.findings
        { s with registry, discoveries := ev.discoveries, records := r' }
      rw [hn, ← h]
      exact hf s _ _ _ _ _
  · intro s r h
    rw [← h]
    exact hf s _ _ _ _ _

/-- If it is kept by the steps of workers too, it holds after any moves that do not cancel the search. -/
theorem after_induction {P : Search σ α → Prop} (hblank : P (blank m cfg))
    (hplant : ∀ s g t s', Reached m cfg s g → (∀ p ∈ s.workers, p = .starting) → t ∈ m.initStates → P s →
      s.plant m cfg ⟨t, m.fingerprint t, 1⟩ = (.ok (), s') → P s')
    (hlog : ∀ s r, P s → P { s with records := r })
    (hstep : ∀ s g w s' g', Reached m cfg s g → Transition m cfg (some w) s g s' g' → P s → P s')
    (hseed : (seed m cfg).1 = .ok ()) {moves : List Move} (hm : ∀ mv ∈ moves, mv ≠ .cancel) : P (after m cfg moves) := by
  have hplay : ∀ s g, Reached m cfg s g → P s → P (s.play m cfg moves) := by
    induction moves with
    | nil => exact fun s g _ h => h
    | cons mv moves ih =>
      intro s g hr h
      cases mv with
      | cancel => exact absurd rfl (hm .cancel List.mem_cons_self)
      | work w pick =>
        obtain ⟨g', ht⟩ := step_transition m cfg s g w pick hr.sound hr.workers
        exact ih (fun mv' h' => hm mv' (List.mem_cons_of_mem _ h')) _ g' (hr.next ht) (hstep s g w _ g' hr ht h)
  obtain ⟨g, hs⟩ := seed_seeded hseed
  exact hplay _ g hs.reached (seed_induction hblank hplant hlog hseed)

/-! ## What was a reason stays one -/

theorem Violated.mono (hg : s.discoveries.Grows s'.discoveries) (h : Violated m s) : Violated m s' := by
  obtain ⟨i, p, hp, he, hi⟩ := h
  exact ⟨i, p, hp, he, by rwa [hg.2 i hi]⟩

theorem Resolved.mono (hg : s.discoveries.Grows s'.discoveries) (h : Resolved m s) : Resolved m s' :=
  ⟨h.1, fun i hi => by rw [hg.2 i (h.2 i hi)]; exact h.2 i hi⟩

theorem Warrants.mono {r : StopReason} (hg : s.discoveries.Grows s'.discoveries) (hgen : s.generated ≤ s'.generated)
    (hf : s.fault ≠ none → s'.fault ≠ none) (h : Warrants m cfg s r) : Warrants m cfg s' r := by
  cases r with
  | stopped => exact h.imp (fun hv => ⟨hv.1, hv.2.mono hg⟩) (Resolved.mono hg)
  | boundReached => exact ⟨h.1, h.2.trans hgen⟩
  | error => exact hf h

theorem Warranted.set (h : Warranted m cfg s) {w : Nat} {q : Phase σ α} (hws : s'.workers = s.workers.set w q)
    (hq : q.violations = 0) (hd : s'.discoveries = s.discoveries) (hgen : s.generated ≤ s'.generated)
    (hf : s'.fault = s.fault) (hr : s'.stopReason = s.stopReason) : Warranted m cfg s' := by
  have hgrows : s.discoveries.Grows s'.discoveries := by
    rw [hd]
    exact .refl _
  refine ⟨by rw [hd]; exact h.counted, fun p hp hpos => ?_, fun r hreason => ?_⟩
  · rw [hws] at hp
    rcases List.mem_or_eq_of_mem_set hp with hp | rfl
    · exact (h.found p hp hpos).mono hgrows
    · omega
  · rw [hr] at hreason
    exact (h.reason r hreason).mono hgrows hgen (by rw [hf]; exact id)

/-! ## Noting -/

theorem stop_stopReason (s : Search σ α) (speaker : Log.Speaker) (x : StopReason) :
    (s.stop speaker x).stopReason = s.stopReason.or (some x) := by
  obtain ⟨r, hr⟩ := stop_eq s speaker x
  rw [hr]

theorem stop_generated (s : Search σ α) (speaker : Log.Speaker) (x : StopReason) :
    (s.stop speaker x).generated = s.generated := by
  obtain ⟨r, hr⟩ := stop_eq s speaker x
  rw [hr]
  rfl

/-- The reason to stop after a note: the first that there was, or that what was found is one, or that the number of states is
one. -/
theorem note_stopReason (cfg : Config σ) (s : Search σ α) (speaker : Log.Speaker) (findings : Findings) :
    (s.note cfg speaker findings).stopReason =
      (s.stopReason.or
        (if (0 < findings.violations ∧ cfg.stopOnViolation = true) ∨ s.discoveries.complete = true then some .stopped
          else none)).or
        (if 0 < cfg.maxStates ∧ cfg.maxStates ≤ s.generated then some .boundReached else none) := by
  have hbound : ∀ u : Search σ α,
      (if (cfg.maxStates > 0 && u.generated ≥ cfg.maxStates) = true then u.stop speaker .boundReached else u).stopReason =
        u.stopReason.or (if 0 < cfg.maxStates ∧ cfg.maxStates ≤ u.generated then some .boundReached else none) := by
    intro u
    by_cases hstates : 0 < cfg.maxStates ∧ cfg.maxStates ≤ u.generated
    · rw [if_pos (by simpa using hstates), if_pos hstates, stop_stopReason]
    · rw [if_neg (by simpa using hstates), if_neg hstates, Option.or_none]
  refine (hbound _).trans ?_
  by_cases hfindings : (0 < findings.violations ∧ cfg.stopOnViolation = true) ∨ s.discoveries.complete = true
  · rw [if_pos (by simpa using hfindings), if_pos hfindings, stop_stopReason, stop_generated]
  · rw [if_neg (by simpa using hfindings), if_neg hfindings, Option.or_none]

theorem eq_or_of_or_eq {o : Option StopReason} {x r : StopReason} (h : o.or (some x) = some r) : o = some r ∨ r = x := by
  cases o with
  | none => exact Or.inr (Option.some.inj h).symm
  | some y => exact Or.inl h

/-- A note gives no reason that is not warranted. -/
theorem note_warrants (s : Search σ α) (speaker : Log.Speaker) (findings : Findings)
    (hlen : s.discoveries.slots.length = m.properties.length) (hcounted : s.discoveries.Counted)
    (hfound : 0 < findings.violations → Violated m s) (hreason : ∀ r, s.stopReason = some r → Warrants m cfg s r) :
    ∀ r, (s.note cfg speaker findings).stopReason = some r → Warrants m cfg s r := by
  intro r hr
  rw [note_stopReason] at hr
  -- the reason was there before, or is one of the two that the note may give
  rcases Option.or_eq_some_iff.1 hr with hr | ⟨-, hr⟩
  · rcases Option.or_eq_some_iff.1 hr with hr | ⟨-, hr⟩
    · exact hreason r hr
    · split at hr
      · rename_i hfindings
        cases hr
        rcases hfindings with ⟨hpos, hcfg⟩ | hcomplete
        · exact Or.inl ⟨hcfg, hfound hpos⟩
        · rw [hcounted.complete_iff, hlen] at hcomplete
          exact Or.inr hcomplete
      · cases hr
  · split at hr
    · rename_i hstates
      cases hr
      exact hstates
    · cases hr

/-! ## Steps of workers -/

theorem generated_le (hr : Reached m cfg s g) (new : List (Fingerprint × Fingerprint)) {registry : Predecessors}
    (hs : registry.Sound) (hb : registry.bindings.Perm (new ++ s.registry.bindings)) : s.registry.size ≤ registry.size := by
  rw [hs.size_eq, hr.sound.size_eq, hb.length_eq, List.length_append]
  omega

/-- **A step of a worker** keeps the reason to stop warranted. -/
theorem Transition.warranted {w : Nat} (hr : Reached m cfg s g) (ht : Transition m cfg (some w) s g s' g')
    (h : Warranted m cfg s) : Warranted m cfg s' := by
  cases ht with
  | rest => exact h
  | start | take | wait | leave | visit | present | outside | deep | enumerate | complete | skip | give =>
    exact h.set rfl rfl rfl (Nat.le_refl _) rfl rfl
  | known _ _ _ hs hb => exact h.set rfl rfl rfl (generated_le hr [] hs hb) rfl rfl
  | discover _ _ _ hs hb => exact h.set rfl rfl rfl (generated_le hr [_] hs hb) rfl rfl
  | @judge _ _ _ r e child todo ev hw hev hf =>
    obtain ⟨l, hl, rfl⟩ := hr.custody.mem_ledger hw (List.mem_cons_of_mem _ List.mem_cons_self)
    obtain ⟨hgrows, -⟩ := Discoveries.evaluate_spec l.entry.state (hr.fp_ne hl) hr.judgement.length
    obtain ⟨hcounted, hfound⟩ :=
      Discoveries.evaluate_summed l.entry.state (hr.fp_ne hl) hr.judgement.length h.counted
    rw [← hev] at hgrows hcounted hfound
    refine ⟨hcounted, fun p hp hpos => ?_, fun x hx => (h.reason x hx).mono hgrows (Nat.le_refl _) id⟩
    rcases List.mem_or_eq_of_mem_set hp with hp | rfl
    · exact (h.found p hp hpos).mono hgrows
    · exact hfound hpos
  | @note _ _ _ r e child todo findings reason stop hw hn =>
    have hreason := note_warrants s (.worker w) findings hr.judgement.length h.counted
      (h.found _ (List.mem_of_getElem? hw)) h.reason
    rw [hn] at hreason
    refine ⟨h.counted, fun p hp hpos => ?_, hreason⟩
    rcases List.mem_or_eq_of_mem_set hp with hp | rfl
    · exact h.found p hp hpos
    · exact absurd hpos (Nat.lt_irrefl 0)
  | @crash _ _ _ r p e f d hw hp hf =>
    have hd : s.discoveries.Grows d ∧ d.Counted := by
      cases hf with
      | condition =>
        obtain ⟨l, hl, rfl⟩ := hr.custody.mem_ledger hw (List.mem_cons_of_mem _ List.mem_cons_self)
        exact ⟨(Discoveries.evaluate_spec l.entry.state (hr.fp_ne hl) hr.judgement.length).1,
          (Discoveries.evaluate_summed l.entry.state (hr.fp_ne hl) hr.judgement.length h.counted).1⟩
      | _ => exact ⟨.refl _, h.counted⟩
    have hfault : s.fault.or (some f) ≠ none := by simp
    refine ⟨hd.2, fun q hq hpos => ?_, fun x hx => ?_⟩
    · rcases List.mem_or_eq_of_mem_set hq with hq | rfl
      · exact (h.found q hq hpos).mono hd.1
      · exact absurd hpos (Nat.lt_irrefl 0)
    · rcases eq_or_of_or_eq hx with hx | rfl
      · exact (h.reason x hx).mono hd.1 (Nat.le_refl _) fun _ => hfault
      · exact hfault

/-! ## Seeding -/

theorem plant_warranted {t : σ} {fp : Fingerprint} (hr : Reached m cfg s g) (hw : ∀ p ∈ s.workers, p = .starting)
    (hfp : fp ≠ Hash.noFingerprint) (h : Warranted m cfg s) (hp : s.plant m cfg ⟨t, fp, 1⟩ = (.ok (), s')) :
    Warranted m cfg s' := by
  have hstart : ∀ p ∈ s.workers, ¬ 0 < p.violations := by
    intro p hp
    rw [hw p hp]
    exact Nat.lt_irrefl 0
  rcases plant_cases hr.sound hfp hp with
    ⟨old, registry, -, hs, hb, rfl⟩ | ⟨registry, ev, r', -, hs, hb, hev, -, rfl⟩
  · exact ⟨h.counted, fun p hp hpos => absurd hpos (hstart p hp), fun x hx =>
      Warrants.mono (s := s) (.refl _) (generated_le hr [] hs hb) id (h.reason x hx)⟩
  · obtain ⟨hgrows, -⟩ := Discoveries.evaluate_spec t hfp hr.judgement.length
    obtain ⟨hcounted, hfound⟩ := Discoveries.evaluate_summed t hfp hr.judgement.length h.counted
    rw [← hev] at hgrows hcounted hfound
    have hreason := note_warrants { s with registry, discoveries := ev.discoveries, records := r' } .main ev.findings
      (hgrows.1.trans hr.judgement.length) hcounted hfound fun x hx =>
        Warrants.mono (s := s) hgrows (generated_le hr [_] hs hb) id (h.reason x hx)
    obtain ⟨reason, stop, r, hn, -⟩ := note_eq cfg .main ev.findings
      { s with registry, discoveries := ev.discoveries, records := r' }
    rw [hn] at hreason ⊢
    exact ⟨hcounted, fun p hp hpos => absurd hpos (hstart p hp), hreason⟩

theorem Warranted.log (h : Warranted m cfg s) (r : List Log.Record) : Warranted m cfg { s with records := r } :=
  ⟨h.counted, h.found, fun x hx => Warrants.mono (s := s) (.refl _) (Nat.le_refl _) id (h.reason x hx)⟩

theorem blank_warranted (m : Model σ α) (cfg : Config σ) : Warranted m cfg (blank m cfg) := by
  refine ⟨Discoveries.counted_none _, fun p hp hpos => ?_, fun r hr => by cases hr⟩
  rw [List.eq_of_mem_replicate hp] at hpos
  exact absurd hpos (Nat.lt_irrefl 0)

/-- **In a run that is not cancelled the reason to stop is warranted.** -/
theorem after_warranted (hseed : (seed m cfg).1 = .ok ()) {moves : List Move} (hm : ∀ mv ∈ moves, mv ≠ .cancel) :
    Warranted m cfg (after m cfg moves) := by
  apply after_induction (blank_warranted m cfg) _ (fun s r h => h.log r) _ hseed hm
  · exact fun s g t s' hr hw _ h hp => plant_warranted hr hw (fingerprint_ne m t) h hp
  · exact fun s g w s' g' hr ht h => ht.warranted hr h

/-! ## Searches that have no reason to stop -/

/-- Without a bound on the states, and without a fault, there is no reason to stop if the `always` properties hold in all
reachable states, and there is one. -/
theorem Reached.stopReason_eq_none (hr : Reached m cfg s g) (h : Warranted m cfg s) (hstates : cfg.maxStates = 0)
    (hfault : s.fault = none)
    (hsafe : ∀ p ∈ m.properties, p.expectation = .always → ∀ t, m.Reachable t → p.condition t = .ok true)
    (halways : ∃ p ∈ m.properties, p.expectation = .always) : s.stopReason = none := by
  have hopen : ∀ i p, m.properties[i]? = some p → p.expectation = .always →
      ¬ s.discoveries.slot i ≠ Hash.noFingerprint := by
    intro i p hp he hi
    obtain ⟨l, hl, -, q, hq, hres⟩ := hr.judgement.backed i hi
    rw [hp] at hq
    cases hq
    rw [Property.resolvedBy_always he, hsafe p (List.mem_of_getElem? hp) he _ (hr.grown.reachable hl)] at hres
    cases hres
  cases hreason : s.stopReason with
  | none => rfl
  | some r =>
    exfalso
    cases r with
    | stopped =>
      rcases h.reason _ hreason with ⟨-, i, p, hp, he, hi⟩ | ⟨-, hall⟩
      · exact hopen i p hp he hi
      · obtain ⟨p, hmem, he⟩ := halways
        obtain ⟨i, hi, hp⟩ := List.getElem_of_mem hmem
        exact hopen i p (by rw [List.getElem?_eq_getElem hi, hp]) he (hall i hi)
    | boundReached =>
      have hpos := (h.reason _ hreason).1
      omega
    | error => exact h.reason _ hreason hfault

theorem Reached.judgements_eq (h : Reached m cfg s g) (hinj : Set.InjOn m.fingerprint {t | m.Reachable t})
    (hroots : ∀ t ∈ m.initStates, g.Knows (m.fingerprint t)) (he : s.exhausted = true)
    (hmeets : ∀ p ∈ m.properties, m.Meets p) : s.judgements m = m.properties.map fun p => (p, .passed) := by
  have hpassed : ∀ x ∈ m.properties.zipIdx,
      (x.1, s.discoveries.verdict x.2 x.1.expectation s.exhausted) = (x.1, .passed) := by
    rintro ⟨p, i⟩ hx
    have hp := List.mk_mem_zipIdx_iff_getElem?.1 hx
    have hdiscovered := h.discovered_iff hinj hroots he hp
    have hmeet := hmeets p (List.mem_of_getElem? hp)
    unfold Model.Meets at hmeet
    rw [Prod.mk.injEq, Discoveries.verdict, he]
    refine ⟨rfl, ?_⟩
    cases hexp : p.expectation with
    | always =>
      rw [hexp] at hmeet
      rw [classify_always_passed, ← Bool.not_eq_true, hdiscovered]
      refine ⟨?_, rfl⟩
      rintro ⟨t, ht, hres⟩
      rw [Property.resolvedBy_always hexp, hmeet t ht] at hres
      cases hres
    | sometimes =>
      rw [hexp] at hmeet
      obtain ⟨t, ht, hcond⟩ := hmeet
      rw [classify_sometimes_passed, hdiscovered]
      exact ⟨t, ht, (Property.resolvedBy_sometimes hexp).2 hcond⟩
  have hfst : m.properties.zipIdx.map (fun x => (x.1, Verdict.passed)) = m.properties.map fun p => (p, .passed) := by
    rw [← List.zipIdx_map_fst 0 m.properties, List.map_map, List.zipIdx_map_fst]
    rfl
  rw [judgements, ← hfst]
  exact List.map_congr_left hpassed

theorem check_unstopped (hm : m.Total) (hmeets : ∀ p ∈ m.properties, m.Meets p)
    (halways : ∃ p ∈ m.properties, p.expectation = .always) (h1 : cfg.workers ≤ 1) (hstates : cfg.maxStates = 0)
    (hv : ∀ call t fp, cfg.visitor call t fp = .ok ()) :
    ∃ s moves, check m cfg = .ok s ∧ after m cfg moves = s ∧ s.done = true ∧ s.stopReason = none := by
  obtain ⟨s, moves, hcheck, hafter, hcancel, hdone, hfault⟩ := check_run hm h1 hv
  obtain ⟨g, hr, -⟩ := after_reached (seed_ok hm cfg) moves
  have hw : Warranted m cfg (after m cfg moves) := after_warranted (seed_ok hm cfg) hcancel
  rw [hafter] at hr hw
  have hsafe : ∀ p ∈ m.properties, p.expectation = .always → ∀ t, m.Reachable t → p.condition t = .ok true := by
    intro p hp he
    have hmeet := hmeets p hp
    rwa [Model.Meets, he] at hmeet
  exact ⟨s, moves, hcheck, hafter, hdone, hr.stopReason_eq_none hw hstates hfault hsafe halways⟩

/-- **A single worker without bounds** explores all of a model that meets its properties, if one of these must always hold,
as it then has no reason to stop before. -/
theorem check_exhausts (hm : m.Total) (hinj : Set.InjOn m.fingerprint {t | m.Reachable t}) {R : Finset σ}
    (hR : ∀ t, t ∈ R ↔ m.Reachable t) (hmeets : ∀ p ∈ m.properties, m.Meets p)
    (halways : ∃ p ∈ m.properties, p.expectation = .always) (h1 : cfg.workers ≤ 1) (hstates : cfg.maxStates = 0)
    (hdepth : cfg.maxDepth = 0) (hv : ∀ call t fp, cfg.visitor call t fp = .ok ()) :
    ∃ s, check m cfg = .ok s ∧ Covers m R s ∧ s.judgements m = m.properties.map fun p => (p, .passed) := by
  obtain ⟨s, moves, hcheck, hafter, hdone, hn⟩ := check_unstopped hm hmeets halways h1 hstates hv
  obtain ⟨g, hr, hroots⟩ := after_reached (seed_ok hm cfg) moves
  rw [hafter] at hr
  exact ⟨s, hcheck, hr.covers hinj hroots hR hdepth hdone hn,
    hr.judgements_eq hinj hroots (hr.exhausted hdepth hdone hn) hmeets⟩

end Search

end StateSpace
