import Mathlib.Algebra.BigOperators.Group.Finset.Basic
import StateSpace.Proofs.Search.Solo
import StateSpace.Proofs.Search.Verdicts

/-!
# A search that is not stopped covers the reachable states

* `Tally m cfg s g` : what the counters count; kept by every transition (`Reached.tally`);
* `Model.Total m` : the model's code raises no fault on reachable states; `seed_ok`, `Reached.fault_eq_none` : then none is
  raised; `check_run` : the check by a single worker as a run;
* `Covers m R s` : each state of `R` was registered and visited once, and the counters say so; `Reached.covers` : a search
  that is over and was not stopped covers the reachable states;
* `coverage_exact` : so all such searches agree, and with a single worker a search does get to its end.
-/

namespace StateSpace

variable {σ α : Type}

def Model.fanOut (m : Model σ α) (t : σ) : Nat :=
  match m.actions t with
  | .ok as => as.length
  | .error _ => 0

/-- The entry that a worker has visited and not completed. -/
def Phase.visited : Phase σ α → List (Entry σ)
  | .showing e _ | .opening e | .acting e _ | .judging e _ _ | .noting e _ _ _ | .pushing e _ _ => [e]
  | _ => []

/-- The entry whose actions a worker has enumerated. -/
def Phase.opened : Phase σ α → List (Entry σ)
  | .acting e _ | .judging e _ _ | .noting e _ _ _ | .pushing e _ _ => [e]
  | _ => []

namespace Search

/-- The number of actions that are enumerated for an entry. -/
def fanOut (m : Model σ α) (cfg : Config σ) (e : Entry σ) : Nat :=
  if m.withinBoundary e.state = .ok true ∧ ¬ (0 < cfg.maxDepth ∧ cfg.maxDepth ≤ e.depth) then m.fanOut e.state else 0

/-- What the counters count, unless a fault has lost an entry. -/
structure Tally (m : Model σ α) (cfg : Config σ) (s : Search σ α) (g : Chronicle σ) : Prop where
  expanded : s.expanded = s.visits.length
  visits : g.lost = [] →
    s.visits.Perm ((s.workers.flatMap Phase.visited ++ g.completed).map fun e => (e.state, e.fp))
  actions : g.lost = [] →
    s.actionCount = ((s.workers.flatMap Phase.opened ++ g.completed).map (fanOut m cfg)).sum

variable {m : Model σ α} {cfg : Config σ} {s s' : Search σ α} {g g' : Chronicle σ}

/-! ## Counters -/

theorem Tally.frame (h : Tally m cfg s g) {w : Nat} {p q : Phase σ α} (hw : s.workers[w]? = some p)
    (hws : s'.workers = s.workers.set w q) (hv : q.visited = p.visited) (ho : q.opened = p.opened)
    (hvisits : s'.visits = s.visits) (hexp : s'.expanded = s.expanded) (hcount : s'.actionCount = s.actionCount)
    (hc : g'.completed = g.completed) (hl : g'.lost = g.lost) : Tally m cfg s' g' := by
  refine ⟨by rw [hexp, hvisits]; exact h.expanded, ?_, ?_⟩
  · rw [hl, hvisits, hws, hc, flatMap_set_of_eq Phase.visited hw hv]
    exact h.visits
  · rw [hl, hcount, hws, hc, flatMap_set_of_eq Phase.opened hw ho]
    exact h.actions

theorem Tally.same (h : Tally m cfg s g) (hws : s'.workers = s.workers) (hvisits : s'.visits = s.visits)
    (hexp : s'.expanded = s.expanded) (hcount : s'.actionCount = s.actionCount) (hc : g'.completed = g.completed)
    (hl : g'.lost = g.lost) : Tally m cfg s' g' := by
  refine ⟨by rw [hexp, hvisits]; exact h.expanded, ?_, ?_⟩
  · rw [hl, hvisits, hws, hc]
    exact h.visits
  · rw [hl, hcount, hws, hc]
    exact h.actions

theorem flatMap_set_enter {β γ : Type} (f : β → List γ) {l : List β} {i : Nat} {a b : β} {x : γ} (h : l[i]? = some a)
    (ha : f a = []) (hb : f b = [x]) (L : List γ) : ((l.set i b).flatMap f ++ L).Perm (x :: (l.flatMap f ++ L)) := by
  have hset := flatMap_set_perm f b h
  rw [ha, hb, List.nil_append, List.singleton_append] at hset
  exact hset.append_right L

theorem flatMap_set_move {β γ : Type} (f : β → List γ) {l : List β} {i : Nat} {a b : β} {x : γ} (h : l[i]? = some a)
    (ha : f a = [x]) (hb : f b = []) (L : List γ) : ((l.set i b).flatMap f ++ x :: L).Perm (l.flatMap f ++ L) := by
  have hset := flatMap_set_perm f b h
  rw [ha, hb, List.nil_append, List.singleton_append] at hset
  exact List.perm_middle.trans (hset.append_right L)

/-- An entry is opened, and its actions are counted. -/
theorem Tally.open (h : Tally m cfg s g) {w : Nat} {e : Entry σ} {as : List α} (hw : s.workers[w]? = some (.opening e))
    (hws : s'.workers = s.workers.set w (.acting e as)) (hvisits : s'.visits = s.visits)
    (hexp : s'.expanded = s.expanded) (hcount : s'.actionCount = s.actionCount + fanOut m cfg e) : Tally m cfg s' g := by
  refine ⟨by rw [hexp, hvisits]; exact h.expanded, fun hl => ?_, fun hl => ?_⟩
  · rw [hvisits, hws, flatMap_set_of_eq Phase.visited hw (show (Phase.acting e as).visited = _ from rfl)]
    exact h.visits hl
  · have hperm := (flatMap_set_enter Phase.opened hw rfl (show (Phase.acting e as).opened = [e] from rfl)
      g.completed).map (fanOut m cfg)
    rw [hcount, hws, hperm.sum_eq, List.map_cons, List.sum_cons, h.actions hl, Nat.add_comm]

theorem Transition.tally {who : Option Nat} (ht : Transition m cfg who s g s' g') (h : Tally m cfg s g) :
    Tally m cfg s' g' := by
  cases ht with
  | log | rest | cancel | again | plant => exact h.same rfl rfl rfl rfl rfl rfl
  | start hw | present hw | skip hw | known hw | discover hw | judge hw | note hw | give hw =>
    exact h.frame hw rfl rfl rfl rfl rfl rfl rfl rfl
  | take hw hp | wait hw hp | leave hw hp =>
    rcases hp with rfl | rfl
    · exact h.frame hw rfl rfl rfl rfl rfl rfl rfl rfl
    · exact h.frame hw rfl rfl rfl rfl rfl rfl rfl rfl
  | @visit w _ _ e hw =>
    refine ⟨by rw [List.length_cons, h.expanded], fun hl => ?_, fun hl => ?_⟩
    · have hperm := flatMap_set_enter Phase.visited hw rfl
        (show (Phase.showing e (s.expanded + 1) : Phase σ α).visited = [e] from rfl) g.completed
      have hmap := hperm.map fun e : Entry σ => (e.state, e.fp)
      rw [List.map_cons] at hmap
      exact ((h.visits hl).cons _).trans hmap.symm
    · have hsame := flatMap_set_of_eq Phase.opened hw
        (show (Phase.showing e (s.expanded + 1) : Phase σ α).opened = _ from rfl)
      rw [hsame]
      exact h.actions hl
  | @outside w _ _ e hw hb =>
    refine h.open hw rfl rfl rfl ?_
    rw [fanOut, if_neg (by simp [hb])]
    rfl
  | @deep w _ _ e hw hb hd =>
    refine h.open hw rfl rfl rfl ?_
    rw [fanOut, if_neg (fun hc => hc.2 hd)]
    rfl
  | @enumerate w _ _ e as hw hb hd ha =>
    refine h.open hw rfl rfl rfl ?_
    rw [fanOut, if_pos ⟨hb, hd⟩, Model.fanOut, ha]
  | @complete w _ _ e hw =>
    refine ⟨h.expanded, fun hl => ?_, fun hl => ?_⟩
    · exact (h.visits hl).trans ((flatMap_set_move Phase.visited hw rfl rfl g.completed).map _).symm
    · rw [h.actions hl]
      exact ((flatMap_set_move Phase.opened hw rfl rfl g.completed).map (fanOut m cfg)).sum_eq.symm
  | crash => exact ⟨h.expanded, fun hl => absurd hl (List.cons_ne_nil _ _), fun hl => absurd hl (List.cons_ne_nil _ _)⟩

theorem Reached.tally (h : Reached m cfg s g) : Tally m cfg s g := by
  induction h with
  | blank =>
    have hnil : ∀ f : Phase σ α → List (Entry σ), f .starting = [] →
        (Search.blank m cfg).workers.flatMap f = [] := by
      intro f hf
      rw [List.flatMap_eq_nil_iff]
      intro p hp
      rw [List.eq_of_mem_replicate hp, hf]
    refine ⟨rfl, fun _ => ?_, fun _ => ?_⟩
    · rw [hnil _ rfl]
      exact List.Perm.refl _
    · rw [hnil _ rfl]
      rfl
  | next _ ht ih => exact ht.tally ih

end Search

/-! ## Models without faults -/

/-- The model's code raises no fault on reachable states. -/
structure Model.Total (m : Model σ α) : Prop where
  boundary : ∀ t, m.Reachable t → ∃ inside, m.withinBoundary t = .ok inside
  actions : ∀ t, m.Reachable t → ∃ as, m.actions t = .ok as
  next : ∀ t as a, m.Reachable t → m.actions t = .ok as → a ∈ as → ∃ next, m.next t a = .ok next
  conditions : ∀ t, m.Reachable t → ∀ p ∈ m.properties, ∃ holds, p.condition t = .ok holds

namespace Search

variable {m : Model σ α} {cfg : Config σ} {s s' : Search σ α} {g g' : Chronicle σ}

theorem plant_ok {fp : Fingerprint} {t : σ} (hs : s.registry.Sound) (hfp : fp ≠ Hash.noFingerprint)
    (hc : ∀ p ∈ m.properties, ∃ holds, p.condition t = .ok holds) : (s.plant m cfg ⟨t, fp, 1⟩).1 = .ok () := by
  unfold plant
  rcases register_cases hs hfp fp with ⟨old, registry, -, hreg, -⟩ | ⟨registry, -, hreg, -⟩
  · rw [hreg]
  · rw [hreg]
    dsimp only [judge]
    rw [Discoveries.evaluate_fault hc]

theorem seedFrom_ok (hm : m.Total) (rest : List σ) (hr : Reached m cfg s g) (hw : ∀ p ∈ s.workers, p = .starting)
    (hi : ∀ t ∈ rest, t ∈ m.initStates) : (seedFrom m cfg rest s).1 = .ok () := by
  induction rest generalizing s g with
  | nil => rfl
  | cons t rest ih =>
    have ht := hi t List.mem_cons_self
    have hok : (s.plant m cfg ⟨t, m.fingerprint t, 1⟩).1 = .ok () :=
      plant_ok hr.sound (fingerprint_ne m t) (hm.conditions t (.init ht))
    rw [seedFrom]
    cases hp : s.plant m cfg ⟨t, m.fingerprint t, 1⟩ with
    | mk outcome s₁ =>
      rw [hp] at hok
      cases outcome with
      | error f => cases hok
      | ok u =>
        obtain ⟨g₁, htr, hws, -⟩ := plant_transition g hr.sound hw ht rfl hp
        exact ih (hr.next htr) (by rwa [hws]) fun t' ht' => hi t' (List.mem_cons_of_mem _ ht')

theorem seed_ok (hm : m.Total) (cfg : Config σ) : (seed m cfg).1 = .ok () := by
  have hblank : Reached m cfg (Search.blank m cfg) ⟨[], [], [], []⟩ := .blank
  have hok := seedFrom_ok hm m.initStates hblank (fun p hp => List.eq_of_mem_replicate hp) fun t ht => ht
  unfold seed
  cases hs : seedFrom m cfg m.initStates (Search.blank m cfg) with
  | mk outcome s =>
    rw [hs] at hok
    cases outcome with
    | error f => cases hok
    | ok u => rfl

theorem Custody.reachable (hr : Reached m cfg s g) {w : Nat} {p : Phase σ α} {e : Entry σ} (hw : s.workers[w]? = some p)
    (he : e ∈ p.entries) : m.Reachable e.state := by
  obtain ⟨l, hl, rfl⟩ := hr.custody.mem_ledger hw he
  exact hr.grown.reachable hl

/-- A search of a model without faults, with a visitor that raises none, meets none. -/
theorem Reached.fault_eq_none (hm : m.Total) (hv : ∀ call t fp, cfg.visitor call t fp = .ok ()) (h : Reached m cfg s g) :
    s.fault = none := by
  induction h with
  | blank => rfl
  | next hr ht ih =>
    cases ht with
    | @crash w _ _ r p e f d hw hp hf =>
      exfalso
      cases hf with
      | visitor hvis =>
        rw [hv] at hvis
        cases hvis
      | @boundary e' _ hb =>
        obtain ⟨inside, hok⟩ := hm.boundary e'.state (Custody.reachable hr hw List.mem_cons_self)
        rw [hb] at hok
        cases hok
      | @actions e' _ _ _ ha =>
        obtain ⟨as, hok⟩ := hm.actions e'.state (Custody.reachable hr hw List.mem_cons_self)
        rw [ha] at hok
        cases hok
      | @next e' a todo _ hn =>
        cases hr.expansions.acting hw (List.mem_singleton_self _) with
        | inside hb ha hh =>
          obtain ⟨next, hok⟩ := hm.next e'.state _ a (Custody.reachable hr hw List.mem_cons_self) ha
            (List.mem_append_right _ List.mem_cons_self)
          rw [hn] at hok
          cases hok
      | @condition e' child todo _ hc =>
        have hreach := Custody.reachable hr hw (List.mem_cons_of_mem _ List.mem_cons_self)
        rw [Discoveries.evaluate_fault (hm.conditions child.state hreach)] at hc
        cases hc
    | _ => exact ih

/-- **A check by a single worker** of a model without faults is a run to its end, which is not cancelled and meets none. -/
theorem check_run (hm : m.Total) (h1 : cfg.workers ≤ 1) (hv : ∀ call t fp, cfg.visitor call t fp = .ok ()) :
    ∃ s moves, check m cfg = .ok s ∧ after m cfg moves = s ∧ (∀ mv ∈ moves, mv ≠ .cancel) ∧ s.done = true ∧
      s.fault = none := by
  obtain ⟨s, n, hcheck, hdone, hplay⟩ := check_solo h1 (seed_ok hm cfg)
  have hmoves : ∀ mv ∈ List.replicate n (Move.work 0 0), mv = .work 0 0 := fun mv hmv => List.eq_of_mem_replicate hmv
  have hafter : after m cfg (List.replicate n (.work 0 0)) = s :=
    hplay _ (fun mv hmv => ⟨0, hmoves mv hmv⟩) (by rw [List.length_replicate])
  obtain ⟨g, hr, -⟩ := after_reached (seed_ok hm cfg) (List.replicate n (.work 0 0))
  rw [hafter] at hr
  exact ⟨s, _, hcheck, hafter, fun mv hmv => by rw [hmoves mv hmv]; simp, hdone, hr.fault_eq_none hm hv⟩

/-! ## Coverage -/

/-- Each state of `R` was registered and visited once, and the counters say so. -/
structure Covers (m : Model σ α) (R : Finset σ) (s : Search σ α) : Prop where
  keys : (s.registry.bindings.map Prod.fst).Perm (R.toList.map m.fingerprint)
  visits : s.visitList.Perm (R.toList.map fun t => (t, m.fingerprint t))
  generated : s.generated = R.card
  expanded : s.expanded = R.card
  actions : s.actionCount = ∑ t ∈ R with m.withinBoundary t = .ok true, m.fanOut t
  termination : s.termination = .exhausted

theorem Reached.exhausted (h : Reached m cfg s g) (hdepth : cfg.maxDepth = 0) (hdone : s.done = true)
    (hn : s.stopReason = none) : s.exhausted = true :=
  exhausted_iff.2 ⟨hdone, h.pending_of_done hn hdone, h.depthLimited hdepth⟩

theorem Reached.fps_eq (h : Reached m cfg s g) :
    (g.ledger.map fun l => l.entry.fp) = (g.ledger.map fun l => l.entry.state).map m.fingerprint :=
  map_eq_map_map fun _ hl => h.grown.fp_eq hl

/-- After an exhaustive search the registered states are the reachable ones. -/
theorem Reached.states_perm (h : Reached m cfg s g) (hinj : Set.InjOn m.fingerprint {t | m.Reachable t})
    (hroots : ∀ t ∈ m.initStates, g.Knows (m.fingerprint t)) (he : s.exhausted = true) {R : Finset σ}
    (hR : ∀ t, t ∈ R ↔ m.Reachable t) : (g.ledger.map fun l => l.entry.state).Perm R.toList := by
  have hnd : (g.ledger.map fun l => l.entry.state).Nodup := by
    have hnd := h.nodup
    rw [h.fps_eq] at hnd
    exact hnd.of_map _
  refine (List.perm_ext_iff_of_nodup hnd R.nodup_toList).2 fun t => ?_
  rw [Finset.mem_toList, hR, List.mem_map]
  constructor
  · rintro ⟨l, hl, rfl⟩
    exact h.grown.reachable hl
  · exact fun ht => h.mem_of_exhausted hinj hroots he ht

/-- **A search that is over and was not stopped covers the reachable states.** -/
theorem Reached.covers (h : Reached m cfg s g) (hinj : Set.InjOn m.fingerprint {t | m.Reachable t})
    (hroots : ∀ t ∈ m.initStates, g.Knows (m.fingerprint t)) {R : Finset σ} (hR : ∀ t, t ∈ R ↔ m.Reachable t)
    (hdepth : cfg.maxDepth = 0) (hdone : s.done = true) (hn : s.stopReason = none) : Covers m R s := by
  have he := h.exhausted hdepth hdone hn
  have hstates := h.states_perm hinj hroots he hR
  obtain ⟨hperm, hlost, -⟩ := h.completed hdone (h.pending_of_done hn hdone)
  have hlen : g.ledger.length = R.card := by
    rw [← Finset.length_toList, ← hstates.length_eq, List.length_map]
  -- whatever is read off the completed entries by state can be read off the reachable states
  have hread : ∀ {β : Type} (f : Entry σ → β) (k : σ → β), (∀ l ∈ g.ledger, f l.entry = k l.entry.state) →
      (g.completed.map f).Perm (R.toList.map k) := by
    intro β f k hfk
    have hmap : (g.ledger.map Link.entry).map f = (g.ledger.map fun l => l.entry.state).map k := by
      rw [List.map_map]
      exact map_eq_map_map hfk
    have hpermf := hperm.symm.map f
    rw [hmap] at hpermf
    exact hpermf.trans (hstates.map k)
  have hvisits : s.visits.Perm (R.toList.map fun t => (t, m.fingerprint t)) := by
    have hv := h.tally.visits hlost
    rw [flatMap_of_done hdone _ rfl, List.nil_append] at hv
    refine hv.trans (hread _ _ fun l hl => ?_)
    rw [h.grown.fp_eq hl]
  refine ⟨?_, ?_, ?_, ?_, ?_, ?_⟩
  · have hkeys : (g.ledger.map Link.binding).map Prod.fst = g.ledger.map fun l => l.entry.fp := by
      rw [List.map_map]
      rfl
    have hb := h.bindings.map Prod.fst
    rw [hkeys, h.fps_eq] at hb
    exact hb.trans (hstates.map _)
  · exact (List.reverse_perm _).trans hvisits
  · rw [h.size_eq, hlen]
  · rw [h.tally.expanded, hvisits.length_eq, List.length_map, Finset.length_toList]
  · have ha := h.tally.actions hlost
    rw [flatMap_of_done hdone _ rfl, List.nil_append] at ha
    have hfan := hread (fanOut m cfg) (fun t => if m.withinBoundary t = .ok true then m.fanOut t else 0) fun l _ => by
      unfold fanOut
      have hno : ¬ (0 < cfg.maxDepth ∧ cfg.maxDepth ≤ l.entry.depth) := by omega
      simp only [hno, not_false_eq_true, and_true]
    rw [ha, hfan.sum_eq, Finset.sum_filter, Finset.sum_map_toList]
  · simp [Search.termination, hdone, h.endings.fault hn, hn, he]

/-- After an exhaustive search a property is discovered if and only if a reachable state resolves it. -/
theorem Reached.discovered_iff (h : Reached m cfg s g) (hinj : Set.InjOn m.fingerprint {t | m.Reachable t})
    (hroots : ∀ t ∈ m.initStates, g.Knows (m.fingerprint t)) (he : s.exhausted = true) {i : Nat} {p : Property σ}
    (hp : m.properties[i]? = some p) :
    (s.discoveries.get? i).isSome = true ↔ ∃ t, m.Reachable t ∧ p.ResolvedBy t := by
  refine ⟨h.resolved hp, ?_⟩
  rintro ⟨t, ht, hres⟩
  by_contra hd
  exact (h.open hinj hroots he hp (Bool.not_eq_true _ ▸ hd) ht).not_resolvedBy hres

/-- A run that got to its end with no bound on the depth and without being stopped. -/
structure Undisturbed (m : Model σ α) (cfg : Config σ) (moves : List Move) : Prop where
  unbounded : cfg.maxDepth = 0
  done : (after m cfg moves).done = true
  unstopped : (after m cfg moves).stopReason = none

/-- Two searches of a model have the same counters, visits up to their order, and verdicts. -/
structure Agree (m : Model σ α) (s s' : Search σ α) : Prop where
  generated : s.generated = s'.generated
  expanded : s.expanded = s'.expanded
  actions : s.actionCount = s'.actionCount
  visits : s.visitList.Perm s'.visitList
  verdicts : s.judgements m = s'.judgements m

theorem Undisturbed.agree (hm : m.Total) (hinj : Set.InjOn m.fingerprint {t | m.Reachable t}) {R : Finset σ}
    (hR : ∀ t, t ∈ R ↔ m.Reachable t) {cfg cfg' : Config σ} {moves moves' : List Move} (hu : Undisturbed m cfg moves)
    (hu' : Undisturbed m cfg' moves') : Agree m (after m cfg moves) (after m cfg' moves') := by
  obtain ⟨g, hr, hroots⟩ := after_reached (seed_ok hm cfg) moves
  obtain ⟨g', hr', hroots'⟩ := after_reached (seed_ok hm cfg') moves'
  have hc := hr.covers hinj hroots hR hu.unbounded hu.done hu.unstopped
  have hc' := hr'.covers hinj hroots' hR hu'.unbounded hu'.done hu'.unstopped
  refine ⟨hc.generated.trans hc'.generated.symm, hc.expanded.trans hc'.expanded.symm,
    hc.actions.trans hc'.actions.symm, hc.visits.trans hc'.visits.symm, ?_⟩
  have he := hr.exhausted hu.unbounded hu.done hu.unstopped
  have he' := hr'.exhausted hu'.unbounded hu'.done hu'.unstopped
  unfold judgements
  refine List.map_congr_left fun x hx => ?_
  have hp := List.mk_mem_zipIdx_iff_getElem?.1 hx
  have hsome := (hr.discovered_iff hinj hroots he hp).trans (hr'.discovered_iff hinj hroots' he' hp).symm
  rw [Prod.mk.injEq, Discoveries.verdict, Discoveries.verdict, he, he', Bool.eq_iff_iff.2 hsome]
  exact ⟨rfl, rfl⟩

/-- **Exact coverage**: every search that gets to its end undisturbed, in any order and on any schedule, has
registered and visited the reachable states once each. A single worker gets there. -/
theorem coverage_exact (m : Model σ α) (hm : m.Total) (R : Finset σ) (hR : ∀ t, t ∈ R ↔ m.Reachable t)
    (hinj : Set.InjOn m.fingerprint R) :
    (∀ cfg : Config σ, cfg.workers ≤ 1 → (∀ call t fp, cfg.visitor call t fp = .ok ()) →
      ∃ s n, check m cfg = .ok s ∧ s.done = true ∧ s.fault = none ∧
        ∀ moves : List Move, (∀ mv ∈ moves, ∃ pick, mv = .work 0 pick) → n ≤ moves.length → after m cfg moves = s) ∧
    (∀ cfg moves, Undisturbed m cfg moves → Covers m R (after m cfg moves)) ∧
    (∀ cfg cfg' moves moves', Undisturbed m cfg moves → Undisturbed m cfg' moves' →
      Agree m (after m cfg moves) (after m cfg' moves')) := by
  have hinj' : Set.InjOn m.fingerprint {t | m.Reachable t} := by
    intro x hx y hy
    exact hinj ((hR x).2 hx) ((hR y).2 hy)
  refine ⟨fun cfg h1 hv => ?_, fun cfg moves hu => ?_, fun cfg cfg' moves moves' hu hu' => hu.agree hm hinj' hR hu'⟩
  · obtain ⟨s, n, hcheck, hdone, hplay⟩ := check_solo h1 (seed_ok hm cfg)
    refine ⟨s, n, hcheck, hdone, ?_, hplay⟩
    obtain ⟨g, hr, -⟩ := after_reached (seed_ok hm cfg) (List.replicate n (.work 0 0))
    rw [hplay _ (fun mv hmv => ⟨0, List.eq_of_mem_replicate hmv⟩) (by rw [List.length_replicate])] at hr
    exact hr.fault_eq_none hm hv
  · obtain ⟨g, hr, hroots⟩ := after_reached (seed_ok hm cfg) moves
    exact hr.covers hinj' hroots hR hu.unbounded hu.done hu.unstopped

theorem fork_cases {t : Nat} (h : fork.model.Reachable t) : t = 0 ∨ t = 1 ∨ t = 2 := by
  simpa using fork.mem_of_reachable (L := [0, 1, 2]) (by decide) h

theorem fork_total : fork.model.Total where
  boundary _ _ := ⟨true, rfl⟩
  actions t ht := by
    rcases fork_cases ht with rfl | rfl | rfl
    · exact ⟨[0, 1], rfl⟩
    · exact ⟨[0, 1], rfl⟩
    · exact ⟨[], rfl⟩
  next t as a ht has ha := by
    rcases fork_cases ht with rfl | rfl | rfl
    · obtain rfl : [0, 1] = as := Except.ok.inj has
      have ha' : a = 0 ∨ a = 1 := by simpa using ha
      rcases ha' with rfl | rfl
      · exact ⟨some 1, rfl⟩
      · exact ⟨some 2, rfl⟩
    · obtain rfl : [0, 1] = as := Except.ok.inj has
      have ha' : a = 0 ∨ a = 1 := by simpa using ha
      rcases ha' with rfl | rfl
      · exact ⟨none, rfl⟩
      · exact ⟨some 0, rfl⟩
    · obtain rfl : [] = as := Except.ok.inj has
      cases ha
  conditions t _ p hp := by
    rw [List.mem_singleton.1 hp]
    exact ⟨_, rfl⟩

theorem mem_fork_iff (t : Nat) : t ∈ ({0, 1, 2} : Finset Nat) ↔ fork.model.Reachable t := by
  constructor
  · intro ht
    have hcases : t = 0 ∨ t = 1 ∨ t = 2 := by simpa using ht
    have hzero : fork.model.Reachable 0 := .init List.mem_cons_self
    rcases hcases with rfl | rfl | rfl
    · exact hzero
    · exact .step hzero rfl ⟨⟨[0, 1], rfl, List.mem_cons_self⟩, rfl⟩
    · exact .step hzero rfl ⟨⟨[0, 1], rfl, List.mem_cons_of_mem _ List.mem_cons_self⟩, rfl⟩
  · intro ht
    simpa using fork_cases ht

theorem coverage_exact_fork : Undisturbed fork.model pair forkMoves ∧ (after fork.model pair forkMoves).generated = 3 ∧
    ∃ s, check fork.model { order := .breadthFirst } = .ok s ∧ s.done = true := by
  have hinj : Set.InjOn fork.model.fingerprint ({0, 1, 2} : Finset Nat) := fun x hx y hy =>
    fork_injOn ((mem_fork_iff x).1 hx) ((mem_fork_iff y).1 hy)
  obtain ⟨hsolo, hcovers, -⟩ := coverage_exact fork.model fork_total {0, 1, 2} mem_fork_iff hinj
  have hu : Undisturbed fork.model pair forkMoves := ⟨rfl, by decide +kernel, by decide +kernel⟩
  obtain ⟨s, -, hcheck, hdone, -⟩ := hsolo { order := .breadthFirst } (Nat.le_refl 1) fun _ _ _ => rfl
  exact ⟨hu, (hcovers pair forkMoves hu).generated, s, hcheck, hdone⟩

end Search

end StateSpace
