import StateSpace.Proofs.Discoveries
import StateSpace.Proofs.Search.Ledger
import StateSpace.Proofs.Systems.Graph
import StateSpace.Search.Outcome

/-!
# Verdicts are sound

* `Backed m d L` : each discovery is the fingerprint of an entry in the ledger `L` whose state resolves the property;
* `Judgement m s g` : the discoveries are backed, and each registered state was judged on every property, or is about to be,
  or a fault came between; kept by every transition (`Reached.judgement`);
* `verdicts_sound` : what each verdict says of the reachable states.
-/

namespace StateSpace

variable {σ α : Type}

/-- The state a worker has registered and not judged. -/
def Phase.unjudged : Phase σ α → List (Entry σ)
  | .judging _ child _ => [child]
  | _ => []

namespace Search

/-- Each discovery is the fingerprint of a registered state that resolves the property. -/
def Backed (m : Model σ α) (d : Discoveries) (L : List (Link σ)) : Prop :=
  ∀ i, d.slot i ≠ Hash.noFingerprint →
    ∃ l ∈ L, l.entry.fp = d.slot i ∧ ∃ p, m.properties[i]? = some p ∧ p.ResolvedBy l.entry.state

/-- What the discoveries say about the registered states. -/
structure Judgement (m : Model σ α) (s : Search σ α) (g : Chronicle σ) : Prop where
  length : s.discoveries.slots.length = m.properties.length
  backed : Backed m s.discoveries g.ledger
  judged : ∀ l ∈ g.ledger, s.discoveries.Judged m.properties l.entry.state ∨ l.entry ∈ g.dropped ∨
    ∃ p ∈ s.workers, l.entry ∈ p.unjudged

variable {m : Model σ α} {cfg : Config σ} {s s' : Search σ α} {g g' : Chronicle σ}

/-! ## The invariant -/

theorem Backed.mono {d : Discoveries} {L L' : List (Link σ)} (h : Backed m d L) (hL : L <:+ L') : Backed m d L' := by
  intro i hi
  obtain ⟨l, hl, hfp, hp⟩ := h i hi
  exact ⟨l, hL.subset hl, hfp, hp⟩

theorem Backed.evaluate {d : Discoveries} {L : List (Link σ)} (h : Backed m d L)
    (hlen : d.slots.length = m.properties.length) {l : Link σ} (hl : l ∈ L) (hfp : l.entry.fp ≠ Hash.noFingerprint) :
    Backed m (d.evaluate m.properties l.entry.state l.entry.fp).discoveries L := by
  obtain ⟨-, hnew, -⟩ := Discoveries.evaluate_spec l.entry.state hfp hlen
  intro i hi
  by_cases heq : (d.evaluate m.properties l.entry.state l.entry.fp).discoveries.slot i = d.slot i
  · rw [heq] at hi ⊢
    exact h i hi
  · obtain ⟨hslot, p, hp, hr⟩ := hnew i heq
    exact ⟨l, hl, hslot.symm, p, hp, hr⟩

theorem Judgement.set (h : Judgement m s g) {w : Nat} {p q : Phase σ α} (hw : s.workers[w]? = some p)
    (hws : s'.workers = s.workers.set w q) (hg : g'.ledger = g.ledger)
    (hgrow : s.discoveries.Grows s'.discoveries) (hb : Backed m s'.discoveries g'.ledger)
    (hdrop : ∀ e ∈ g.dropped, e ∈ g'.dropped)
    (hp : ∀ e ∈ p.unjudged, s'.discoveries.Judged m.properties e.state ∨ e ∈ g'.dropped ∨ e ∈ q.unjudged) :
    Judgement m s' g' := by
  refine ⟨hgrow.1.trans h.length, hb, fun l hl => ?_⟩
  rw [hg] at hl
  have hq : q ∈ s.workers.set w q := List.mem_set (List.getElem?_eq_some_iff.1 hw).1 q
  rw [hws]
  rcases h.judged l hl with hj | hd | ⟨p', hp', hl'⟩
  · exact Or.inl (hj.mono hgrow)
  · exact Or.inr (Or.inl (hdrop _ hd))
  · rcases mem_set_of_mem q hw hp' with rfl | hp'
    · rcases hp _ hl' with hj | hd | hu
      · exact Or.inl hj
      · exact Or.inr (Or.inl hd)
      · exact Or.inr (Or.inr ⟨q, hq, hu⟩)
    · exact Or.inr (Or.inr ⟨p', hp', hl'⟩)

theorem Judgement.frame (h : Judgement m s g) {w : Nat} {p q : Phase σ α} (hw : s.workers[w]? = some p)
    (hws : s'.workers = s.workers.set w q) (hg : g'.ledger = g.ledger) (hdrop : g'.dropped = g.dropped)
    (hd : s'.discoveries = s.discoveries) (hp : p.unjudged = []) : Judgement m s' g' := by
  refine h.set hw hws hg ?_ ?_ ?_ ?_
  · rw [hd]
    exact .refl _
  · rw [hd, hg]
    exact h.backed
  · rw [hdrop]
    exact fun e he => he
  · rw [hp]
    exact fun e he => by cases he

theorem Judgement.same (h : Judgement m s g) (hws : s'.workers = s.workers) (hd : s'.discoveries = s.discoveries) :
    Judgement m s' g := by
  refine ⟨by rw [hd]; exact h.length, by rw [hd]; exact h.backed, ?_⟩
  rw [hws, hd]
  exact h.judged

theorem Transition.judgement {who : Option Nat} (hr : Reached m cfg s g) (ht : Transition m cfg who s g s' g')
    (h : Judgement m s g) : Judgement m s' g' := by
  cases ht with
  | log | rest | cancel | again => exact h.same rfl rfl
  | start hw | visit hw | present hw | outside hw | deep hw | enumerate hw | complete hw | skip hw | known hw | note hw
  | give hw => exact h.frame hw rfl rfl rfl rfl rfl
  | take hw hp | wait hw hp | leave hw hp =>
    refine h.frame hw rfl rfl rfl rfl ?_
    rcases hp with rfl | rfl
    · rfl
    · rfl
  | @discover w _ _ e a todo t registry hw =>
    -- the new entry is the one its worker is about to judge
    have hset : Judgement m
        { s with registry, workers := s.workers.set w (.judging e ⟨t, m.fingerprint t, e.depth + 1⟩ todo) } g :=
      h.frame hw rfl rfl rfl rfl rfl
    refine ⟨h.length, h.backed.mono (List.suffix_cons _ _), fun l hl => ?_⟩
    rcases List.mem_cons.1 hl with rfl | hl
    · exact Or.inr (Or.inr ⟨_, List.mem_set (List.getElem?_eq_some_iff.1 hw).1 _, List.mem_singleton_self _⟩)
    · exact hset.judged l hl
  | @judge w _ _ r e child todo ev hw hev hf =>
    obtain ⟨l, hl, rfl⟩ := hr.custody.mem_ledger hw (List.mem_cons_of_mem _ List.mem_cons_self)
    obtain ⟨hgrow, -, hjudged⟩ := Discoveries.evaluate_spec l.entry.state (hr.fp_ne hl) h.length
    rw [hev] at hf ⊢
    refine h.set hw rfl rfl hgrow (h.backed.evaluate h.length hl (hr.fp_ne hl)) (fun e he => he) fun e he => ?_
    rw [List.mem_singleton.1 he]
    exact Or.inl (hjudged hf)
  | @crash w _ _ r p e f d hw hp hf =>
    -- whatever was not judged is dropped
    have hdrop : ∀ x ∈ p.unjudged, x ∈ p.fresh ++ g.dropped := by
      intro x hx
      cases p with
      | judging e' child todo => exact List.mem_append_left _ hx
      | _ => cases hx
    have hset : s.discoveries.Grows d → Backed m d g.ledger → Judgement m
        { s with
          fault := s.fault.or (some f), stopReason := s.stopReason.or (some .error)
          frontier := s.frontier.requestStop, discoveries := d, workers := s.workers.set w .finished, records := r }
        { g with lost := e :: g.lost, dropped := p.fresh ++ g.dropped } := fun hgrow hb =>
      h.set hw rfl rfl hgrow hb (fun x hx => List.mem_append_right _ hx) fun x hx => Or.inr (Or.inl (hdrop x hx))
    cases hf with
    | condition =>
      obtain ⟨l, hl, rfl⟩ := hr.custody.mem_ledger hw (List.mem_cons_of_mem _ List.mem_cons_self)
      obtain ⟨hgrow, -, -⟩ := Discoveries.evaluate_spec l.entry.state (hr.fp_ne hl) h.length
      exact hset hgrow (h.backed.evaluate h.length hl (hr.fp_ne hl))
    | _ => exact hset (.refl _) h.backed
  | @plant _ _ r r' state registry ev reason stop hw hi hl hs hb hev hf =>
    obtain ⟨hgrow, -, hjudged⟩ := Discoveries.evaluate_spec state (fingerprint_ne m state) h.length
    rw [hev] at hf ⊢
    refine ⟨hgrow.1.trans h.length, ?_, fun l hl => ?_⟩
    · exact (h.backed.mono (List.suffix_cons _ _)).evaluate (l := ⟨⟨state, m.fingerprint state, 1⟩, m.fingerprint state⟩)
        h.length List.mem_cons_self (fingerprint_ne m state)
    · rcases List.mem_cons.1 hl with rfl | hl
      · exact Or.inl (hjudged hf)
      · exact (h.judged l hl).imp_left fun hj => hj.mono hgrow

theorem Reached.judgement (h : Reached m cfg s g) : Judgement m s g := by
  induction h with
  | blank =>
    refine ⟨by simp [Search.blank, Discoveries.none], fun i hi => ?_, fun l hl => by cases hl⟩
    exact absurd (Discoveries.slot_none _ i) hi
  | next hr ht ih => exact ht.judgement hr ih

/-! ## Verdicts -/

theorem mem_judgements {p : Property σ} {v : Verdict} : (p, v) ∈ s.judgements m ↔
    ∃ i, m.properties[i]? = some p ∧ s.discoveries.verdict i p.expectation s.exhausted = v := by
  unfold judgements
  simp only [List.mem_map, Prod.exists, Prod.mk.injEq]
  constructor
  · rintro ⟨q, i, hmem, rfl, hv⟩
    exact ⟨i, List.mk_mem_zipIdx_iff_getElem?.1 hmem, hv⟩
  · rintro ⟨i, hi, hv⟩
    exact ⟨p, i, List.mk_mem_zipIdx_iff_getElem?.2 hi, rfl, hv⟩

theorem classify_always_failed {discovered exhausted : Bool} :
    classify .always discovered exhausted = .failed ↔ discovered = true := by
  revert discovered exhausted
  decide

theorem classify_sometimes_passed {discovered exhausted : Bool} :
    classify .sometimes discovered exhausted = .passed ↔ discovered = true := by
  revert discovered exhausted
  decide

theorem classify_always_passed {discovered exhausted : Bool} :
    classify .always discovered exhausted = .passed ↔ discovered = false ∧ exhausted = true := by
  revert discovered exhausted
  decide

theorem classify_sometimes_failed {discovered exhausted : Bool} :
    classify .sometimes discovered exhausted = .failed ↔ discovered = false ∧ exhausted = true := by
  revert discovered exhausted
  decide

theorem Reached.resolved (h : Reached m cfg s g) {i : Nat} {p : Property σ} (hp : m.properties[i]? = some p)
    (hd : (s.discoveries.get? i).isSome = true) : ∃ t, m.Reachable t ∧ p.ResolvedBy t := by
  obtain ⟨fp, hfp⟩ := Option.isSome_iff_exists.1 hd
  obtain ⟨hslot, hne⟩ := Discoveries.get?_eq_some.1 hfp
  obtain ⟨l, hl, -, q, hq, hres⟩ := h.judgement.backed i (by rwa [hslot])
  rw [hp] at hq
  cases hq
  exact ⟨l.entry.state, h.grown.reachable hl, hres⟩

theorem exhausted_iff : s.exhausted = true ↔ s.done = true ∧ s.frontier.pending = 0 ∧ s.depthLimited = false := by
  simp [exhausted, Frontier.exhausted, and_assoc]

/-- After an exhaustive search every reachable state is registered. -/
theorem Reached.mem_of_exhausted (h : Reached m cfg s g) (hinj : Set.InjOn m.fingerprint {t | m.Reachable t})
    (hroots : ∀ t ∈ m.initStates, g.Knows (m.fingerprint t)) (he : s.exhausted = true) {t : σ} (ht : m.Reachable t) :
    ∃ l ∈ g.ledger, l.entry.state = t := by
  obtain ⟨hdone, hpend, hlim⟩ := exhausted_iff.1 he
  obtain ⟨hperm, -, -⟩ := h.completed hdone hpend
  refine mem_ledger_of_reachable h hinj hroots (fun l hl => ?_) ht
  have hexp := h.expansions.completed l.entry (hperm.mem_iff.1 (List.mem_map_of_mem hl))
  rwa [hlim] at hexp

/-- After an exhaustive search a property without a discovery is open at every reachable state. -/
theorem Reached.open (h : Reached m cfg s g) (hinj : Set.InjOn m.fingerprint {t | m.Reachable t})
    (hroots : ∀ t ∈ m.initStates, g.Knows (m.fingerprint t)) (he : s.exhausted = true) {i : Nat} {p : Property σ}
    (hp : m.properties[i]? = some p) (hd : (s.discoveries.get? i).isSome = false) {t : σ} (ht : m.Reachable t) :
    p.OpenAt t := by
  obtain ⟨l, hl, rfl⟩ := h.mem_of_exhausted hinj hroots he ht
  obtain ⟨hdone, hpend, -⟩ := exhausted_iff.1 he
  obtain ⟨-, -, hdropped⟩ := h.completed hdone hpend
  rcases h.judgement.judged l hl with hj | hdrop | ⟨q, hq, hl'⟩
  · rcases hj i p hp with hslot | hopen
    · rw [Option.isSome_eq_false_iff, Option.isNone_iff_eq_none, Discoveries.get?_eq_none] at hd
      exact absurd hd hslot
    · exact hopen
  · rw [hdropped] at hdrop
    cases hdrop
  · have hfin : q.isFinished = true := List.all_eq_true.1 hdone q hq
    cases q with
    | finished => cases hl'
    | _ => cases hfin

/-- **Verdict soundness**, for any run of any workers: violations and witnesses are reachable states, and where
fingerprints tell reachable states apart, a verdict on all of them is right too. -/
theorem verdicts_sound (m : Model σ α) (cfg : Config σ) (hseed : (seed m cfg).1 = .ok ()) (moves : List Move)
    (p : Property σ) (v : Verdict) (hv : (p, v) ∈ (after m cfg moves).judgements m) :
    (p.expectation = .always → v = .failed → ∃ t, m.Reachable t ∧ p.condition t = .ok false) ∧
    (p.expectation = .sometimes → v = .passed → ∃ t, m.Reachable t ∧ p.condition t = .ok true) ∧
    (Set.InjOn m.fingerprint {t | m.Reachable t} →
      (p.expectation = .always → v = .passed → ∀ t, m.Reachable t → p.condition t = .ok true) ∧
      (p.expectation = .sometimes → v = .failed → ∀ t, m.Reachable t → p.condition t = .ok false)) := by
  obtain ⟨g, hr, hroots⟩ := after_reached hseed moves
  obtain ⟨i, hp, hverdict⟩ := mem_judgements.1 hv
  unfold Discoveries.verdict at hverdict
  refine ⟨fun he hf => ?_, fun he hf => ?_, fun hinj => ⟨fun he hf t ht => ?_, fun he hf t ht => ?_⟩⟩
  · rw [he, hf] at hverdict
    obtain ⟨t, ht, hres⟩ := hr.resolved hp (classify_always_failed.1 hverdict)
    exact ⟨t, ht, (Property.resolvedBy_always he).1 hres⟩
  · rw [he, hf] at hverdict
    obtain ⟨t, ht, hres⟩ := hr.resolved hp (classify_sometimes_passed.1 hverdict)
    exact ⟨t, ht, (Property.resolvedBy_sometimes he).1 hres⟩
  · rw [he, hf] at hverdict
    obtain ⟨hd, hex⟩ := classify_always_passed.1 hverdict
    exact (Property.openAt_always he).1 (hr.open hinj hroots hex hp hd ht)
  · rw [he, hf] at hverdict
    obtain ⟨hd, hex⟩ := classify_sometimes_failed.1 hverdict
    exact (Property.openAt_sometimes he).1 (hr.open hinj hroots hex hp hd ht)

/-- A state with two successors, of which one leads back. -/
def fork : Graph where
  init := [0]
  fans := #[.edges [.state 1, .state 2], .edges [.blocked, .state 0], .edges []]
  properties := [⟨"below three", .always, fun t => .ok (t < 3)⟩]

theorem fork_injOn : Set.InjOn fork.model.fingerprint {t | fork.model.Reachable t} :=
  fork.injOn_fingerprint (L := [0, 1, 2]) (by decide) (by decide +kernel)

def pair : Config Nat := { workers := 2, order := .depthFirst }

def broad : Config Nat := { order := .breadthFirst }

def forkMoves : List Move := (List.replicate 30 [.work 0 0, .work 1 0]).flatten

theorem verdicts_sound_fork :
    (seed fork.model pair).1 = .ok () ∧
    (⟨"below three", .always, fun t => .ok (t < 3)⟩, .passed) ∈
      (after fork.model pair forkMoves).judgements fork.model ∧
    ∀ t, fork.model.Reachable t → (.ok (t < 3) : Except Fault Bool) = .ok true := by
  have hseed : (seed fork.model pair).1 = .ok () := by decide +kernel
  have hv : (⟨"below three", .always, fun t => .ok (t < 3)⟩, .passed) ∈
      (after fork.model pair forkMoves).judgements fork.model :=
    mem_judgements.2 ⟨0, rfl, by decide +kernel⟩
  exact ⟨hseed, hv, ((verdicts_sound _ _ hseed _ _ _ hv).2.2 fork_injOn).1 rfl rfl⟩

end Search

end StateSpace
