import Mathlib.Order.Bounds.Basic
import StateSpace.Proofs.Search.Levels

/-!
# Depth-bounded breadth-first search is exact

* `Model.AtDistance m t d` : the shortest runs to the state `t` have `d` steps; `Model.Due m cfg t d` : so that a search
  with the configuration `cfg` gets to it;
* `Retraced s g` : what a single worker has visited, in order, and how deep it got; kept by every transition
  (`Reached.retraced`);
* `Reached.due_iff` : once nothing is pending, the states that are due are the registered ones, one level below their
  distance;
* `levels_exact` : what a breadth-first search that nothing stops registers, visits and reports.
-/

namespace StateSpace

variable {σ α : Type}

/-- The numbers of steps of the runs to a state through states within the boundary. -/
def Model.runLengths (m : Model σ α) (t : σ) : Set Nat :=
  {n | ∃ p : Path σ α, p.IsRun m ∧ p.last = t ∧ p.steps.length = n}

/-- The shortest runs to the state have this many steps. -/
def Model.AtDistance (m : Model σ α) (t : σ) (d : Nat) : Prop := IsLeast (m.runLengths t) d

theorem Model.AtDistance.reachable {m : Model σ α} {t : σ} {d : Nat} (h : m.AtDistance t d) : m.Reachable t := by
  obtain ⟨p, hp, rfl, -⟩ := h.1
  exact hp.last_reachable

/-- The state is at this distance, and the bound on the depth does not keep a search from it: there is none, or it is
greater. -/
def Model.Due (m : Model σ α) (cfg : Config σ) (t : σ) (d : Nat) : Prop :=
  m.AtDistance t d ∧ (cfg.maxDepth = 0 ∨ d < cfg.maxDepth)

theorem Config.not_cuts_iff {cfg : Config σ} {d : Nat} : ¬ cfg.Cuts d ↔ cfg.maxDepth = 0 ∨ d < cfg.maxDepth := by
  unfold Config.Cuts
  omega

namespace Search

open StateSpace.Path

variable {m : Model σ α} {cfg : Config σ} {s s' : Search σ α} {g g' : Chronicle σ}

/-! ## What was visited, in order -/

/-- What a single worker has visited, the latest first. -/
def seen (s : Search σ α) (g : Chronicle σ) : List (Entry σ) := (s.phase 0).visited ++ g.completed

/-- The visits are those of the entries seen, in order, and the greatest of their depths is known. -/
structure Retraced (s : Search σ α) (g : Chronicle σ) : Prop where
  visits : s.visits = (seen s g).map fun e => (e.state, e.fp)
  bound : ∀ e ∈ seen s g, e.depth ≤ s.maxDepth
  attained : s.maxDepth = 0 ∨ ∃ e ∈ seen s g, e.depth = s.maxDepth

theorem Retraced.frame (h : Retraced s g) (hseen : seen s' g' = seen s g) (hv : s'.visits = s.visits)
    (hd : s'.maxDepth = s.maxDepth) : Retraced s' g' := by
  refine ⟨?_, ?_, ?_⟩
  · rw [hv, hseen]
    exact h.visits
  · rw [hseen, hd]
    exact h.bound
  · rw [hseen, hd]
    exact h.attained

theorem Retraced.set (h : Retraced s g) {p q : Phase σ α} (hw : s.workers[0]? = some p)
    (hws : s'.workers = s.workers.set 0 q) (hq : q.visited = p.visited) (hv : s'.visits = s.visits)
    (hd : s'.maxDepth = s.maxDepth) (hc : g'.completed = g.completed) : Retraced s' g' := by
  refine h.frame ?_ hv hd
  rw [seen, seen, phase_eq hw, phase_set hw hws, hq, hc]

theorem Transition.retraced {who : Option Nat} (hr : Reached m cfg s g) (h1 : cfg.workers ≤ 1)
    (ht : Transition m cfg who s g s' g') (hlost : g'.lost = []) (h : Retraced s g) : Retraced s' g' := by
  cases ht with
  | log | rest | cancel | again | plant => exact h.frame rfl rfl rfl
  | start hw | present hw | outside hw | deep hw | enumerate hw | skip hw | known hw | discover hw | judge hw | note hw
  | give hw =>
    obtain rfl := hr.solo_worker h1 hw
    exact h.set hw rfl rfl rfl rfl rfl
  | take hw hp | wait hw hp | leave hw hp =>
    obtain rfl := hr.solo_worker h1 hw
    rcases hp with rfl | rfl
    · exact h.set hw rfl rfl rfl rfl rfl
    · exact h.set hw rfl rfl rfl rfl rfl
  | complete hw =>
    obtain rfl := hr.solo_worker h1 hw
    refine h.frame ?_ rfl rfl
    rw [seen, seen, phase_eq hw, phase_set hw rfl]
    rfl
  | crash => cases hlost
  | @visit w _ _ e hw =>
    obtain rfl := hr.solo_worker h1 hw
    have hbefore : seen s g = g.completed := by
      rw [seen, phase_eq hw]
      rfl
    have hafter : seen { s with
        expanded := s.expanded + 1
        maxDepth := max s.maxDepth e.depth
        visits := (e.state, e.fp) :: s.visits
        workers := s.workers.set 0 (.showing e (s.expanded + 1)) } g = e :: seen s g := by
      rw [hbefore, seen, phase_set hw rfl]
      rfl
    refine ⟨?_, fun x hx => ?_, ?_⟩
    · rw [hafter, List.map_cons, ← h.visits]
    · rw [hafter] at hx
      rcases List.mem_cons.1 hx with rfl | hx
      · exact Nat.le_max_right _ _
      · exact (h.bound x hx).trans (Nat.le_max_left _ _)
    · rw [hafter]
      rcases Nat.le_total e.depth s.maxDepth with hle | hle
      · rw [Nat.max_eq_left hle]
        refine h.attained.imp_right ?_
        rintro ⟨x, hx, hd⟩
        exact ⟨x, List.mem_cons_of_mem _ hx, hd⟩
      · rw [Nat.max_eq_right hle]
        exact Or.inr ⟨e, List.mem_cons_self, rfl⟩

theorem Transition.lost_nil {who : Option Nat} (ht : Transition m cfg who s g s' g') (h : g'.lost = []) : g.lost = [] := by
  cases ht with
  | crash => cases h
  | _ => exact h

theorem Reached.retraced (h : Reached m cfg s g) (h1 : cfg.workers ≤ 1) (hlost : g.lost = []) : Retraced s g := by
  induction h with
  | blank =>
    have hempty : seen (Search.blank m cfg) ⟨[], [], [], []⟩ = [] := by
      rw [seen, phase, Search.blank, List.getElem?_replicate, if_pos (by omega)]
      rfl
    refine ⟨?_, fun e he => ?_, Or.inl rfl⟩
    · rw [hempty]
      rfl
    · rw [hempty] at he
      cases he
  | next hr ht ih => exact ht.retraced hr h1 hlost (ih (ht.lost_nil hlost))

/-! ## Distances -/

/-- The depth of a registered state is one more than its distance. -/
theorem Orderly.atDistance (h : Orderly m cfg s g) {l : Link σ} (hl : l ∈ g.ledger) :
    ∃ d, l.entry.depth = d + 1 ∧ m.Due cfg l.entry.state d := by
  obtain ⟨path, -, hrun, hlast, hsize⟩ := h.reached.reconstruct_eq h.inj hl
  have hlive := h.reached.cutting.ledger l hl
  refine ⟨path.steps.length, hsize.symm, ⟨⟨path, hrun, hlast, rfl⟩, ?_⟩, ?_⟩
  · rintro n ⟨p, hp, hpl, rfl⟩
    have hle := h.depth_le hl hp hpl
    unfold size at hsize hle
    omega
  · rw [← Config.not_cuts_iff]
    rwa [← hsize] at hlive

/-- **Once nothing is pending the states that are due are the registered ones.** -/
theorem Orderly.due_iff (h : Orderly m cfg s g) (hall : g.ledger.map Link.entry = g.completed) {t : σ} {d : Nat} :
    m.Due cfg t d ↔ ∃ l ∈ g.ledger, l.entry.state = t ∧ l.entry.depth = d + 1 := by
  constructor
  · rintro ⟨hd, hlive⟩
    obtain ⟨⟨p, hp, rfl, rfl⟩, -⟩ := id hd
    have hbound : ∀ k ∈ g.ledger, k.entry.depth < p.size → k.entry ∈ g.completed ∧ ¬ cfg.Cuts k.entry.depth := by
      intro k hk hlt
      rw [← hall]
      rw [← Config.not_cuts_iff] at hlive
      exact ⟨List.mem_map_of_mem hk, fun hcut => hlive (hcut.mono (Nat.le_of_lt_succ hlt))⟩
    obtain ⟨l, hl, hstate, -⟩ := h.registered_within hbound hp (Nat.le_refl _)
    obtain ⟨d, hdepth, hdue⟩ := h.atDistance hl
    rw [hstate] at hdue
    exact ⟨l, hl, hstate, by rw [hdepth, hdue.1.unique hd]⟩
  · rintro ⟨l, hl, rfl, hdepth⟩
    obtain ⟨d', hdepth', hdue⟩ := h.atDistance hl
    rwa [show d = d' by omega]

/-! ## Exactness -/

/-- The search covers the states that are due, level by level, and says whether there may be more. -/
structure ExactLevels (m : Model σ α) (cfg : Config σ) (moves : List Move) : Prop where
  registered : ∀ fp, (after m cfg moves).registry.lookup fp ≠ none ↔ ∃ t d, m.Due cfg t d ∧ m.fingerprint t = fp
  visited : ∀ t fp, (t, fp) ∈ (after m cfg moves).visitList ↔ m.fingerprint t = fp ∧ ∃ d, m.Due cfg t d
  once : ((after m cfg moves).visitList.map Prod.fst).Nodup
  ordered : (after m cfg moves).visitList.Pairwise fun x y => ∀ d d', m.AtDistance x.1 d → m.AtDistance y.1 d' → d ≤ d'
  generated : (after m cfg moves).generated = (after m cfg moves).visitList.length
  depth : ∀ t d, m.Due cfg t d → ∀ depth, DiscoveredAt m cfg moves (m.fingerprint t) depth ↔ depth = d + 1
  rootless : m.initStates = [] → (after m cfg moves).maxDepth = 0
  deepest : m.initStates ≠ [] → IsGreatest {n | ∃ t d, m.Due cfg t d ∧ n = d + 1} (after m cfg moves).maxDepth
  bounded : (after m cfg moves).termination = .boundReached ↔
    0 < cfg.maxDepth ∧ ∃ t, m.withinBoundary t = .ok true ∧ m.AtDistance t (cfg.maxDepth - 1)
  exhausted : (after m cfg moves).termination = .exhausted ↔
    ¬ (0 < cfg.maxDepth ∧ ∃ t, m.withinBoundary t = .ok true ∧ m.AtDistance t (cfg.maxDepth - 1))

theorem Orderly.visits_eq (h : Orderly m cfg s g) (hdone : s.done = true) (hpending : s.frontier.pending = 0) :
    s.visits = g.ledger.map (fun l => (l.entry.state, l.entry.fp)) ∧
      (∀ l ∈ g.ledger, l.entry.depth ≤ s.maxDepth) ∧ (s.maxDepth = 0 ∨ ∃ l ∈ g.ledger, l.entry.depth = s.maxDepth) := by
  obtain ⟨-, hlost, -⟩ := h.reached.completed hdone hpending
  have hretraced := h.reached.retraced h.solo hlost
  have hseen : seen s g = g.ledger.map Link.entry := by
    have hnone := flatMap_of_done hdone Phase.visited rfl
    rw [h.reached.solo h.solo, List.flatMap_singleton] at hnone
    rw [seen, hnone, h.inLine.ledger_eq h.reached hdone hpending]
    rfl
  refine ⟨?_, fun l hl => ?_, ?_⟩
  · rw [hretraced.visits, hseen, List.map_map]
    rfl
  · apply hretraced.bound
    rw [hseen]
    exact List.mem_map_of_mem hl
  · refine hretraced.attained.imp_right ?_
    rintro ⟨e, he, hd⟩
    rw [hseen] at he
    obtain ⟨l, hl, rfl⟩ := List.mem_map.1 he
    exact ⟨l, hl, hd⟩

/-- An entry within the boundary was cut if and only if there is a state within the boundary at the last distance that is
due. -/
theorem Orderly.depthLimited_iff (h : Orderly m cfg s g) (hall : g.ledger.map Link.entry = g.completed) :
    s.depthLimited = true ↔
      0 < cfg.maxDepth ∧ ∃ t, m.withinBoundary t = .ok true ∧ m.AtDistance t (cfg.maxDepth - 1) := by
  have hcutting := h.reached.cutting
  constructor
  · intro hlimited
    obtain ⟨l, hl, -, hb, hcut⟩ := hcutting.limited hlimited
    obtain ⟨d, hdepth, hd, hlive⟩ := h.atDistance hl
    have hcut' := hcut
    unfold Config.Cuts at hcut'
    refine ⟨hcut.1, l.entry.state, hb, ?_⟩
    rwa [show cfg.maxDepth - 1 = d by omega]
  · rintro ⟨hpos, t, hb, hd⟩
    obtain ⟨l, hl, rfl, hdepth⟩ := (h.due_iff hall).1 ⟨hd, Or.inr (by omega)⟩
    have hcompleted : l.entry ∈ g.completed := by
      rw [← hall]
      exact List.mem_map_of_mem hl
    exact hcutting.completed l.entry hcompleted hb ⟨hpos, by omega⟩

theorem Reached.termination_eq (h : Reached m cfg s g) (hdone : s.done = true) (hn : s.stopReason = none) :
    s.termination = if s.depthLimited then .boundReached else .exhausted := by
  have hfrontier : s.frontier.exhausted = true := by
    rw [Frontier.exhausted, h.pending_of_done hn hdone]
    rfl
  unfold termination Search.exhausted
  rw [hdone, hfrontier, h.endings.fault hn, hn]
  cases s.depthLimited with
  | true => rfl
  | false => rfl

theorem Reached.lookup_ne_none (h : Reached m cfg s g) {fp : Fingerprint} :
    s.registry.lookup fp ≠ none ↔ ∃ l ∈ g.ledger, l.entry.fp = fp := by
  rw [Option.ne_none_iff_exists']
  constructor
  · rintro ⟨parent, hparent⟩
    obtain ⟨l, hl, hfp, -⟩ := h.lookup_eq_some.1 hparent
    exact ⟨l, hl, hfp⟩
  · rintro ⟨l, hl, hfp⟩
    exact ⟨l.parent, h.lookup_eq_some.2 ⟨l, hl, hfp, rfl⟩⟩

theorem Orderly.ordered (h : Orderly m cfg s g) :
    g.ledger.Pairwise fun l k => ∀ d d', m.AtDistance k.entry.state d → m.AtDistance l.entry.state d' → d ≤ d' := by
  refine (List.pairwise_map.1 h.inLine.levels).imp_of_mem fun {l k} hl hk hle d d' hd hd' => ?_
  obtain ⟨c, hdepth, hc, -⟩ := h.atDistance hk
  obtain ⟨c', hdepth', hc', -⟩ := h.atDistance hl
  rw [hd.unique hc, hd'.unique hc']
  omega

theorem Orderly.nodup (h : Orderly m cfg s g) : (g.ledger.map fun l => l.entry.state).Nodup := by
  have hnodup := h.reached.nodup
  rw [h.reached.fps_eq] at hnodup
  exact hnodup.of_map _

theorem Reached.ledger_nil (h : Reached m cfg s g) (hinit : m.initStates = []) : g.ledger = [] := by
  have hnone : ∀ t, ¬ m.Reachable t := by
    intro t ht
    induction ht with
    | init hi =>
      rw [hinit] at hi
      cases hi
    | step _ _ _ ih => exact ih
  refine List.eq_nil_iff_forall_not_mem.2 fun l hl => ?_
  exact hnone _ (h.grown.reachable hl)

theorem Orderly.exactLevels {moves : List Move} (h : Orderly m cfg (after m cfg moves) g)
    (hseed : (seed m cfg).1 = .ok ()) (hdisc : ∀ l ∈ g.ledger, DiscoveredAt m cfg moves l.entry.fp l.entry.depth)
    (hdone : (after m cfg moves).done = true) (hn : (after m cfg moves).stopReason = none) : ExactLevels m cfg moves := by
  have hpending := h.reached.pending_of_done hn hdone
  have hall := h.inLine.ledger_eq h.reached hdone hpending
  have hdue : ∀ {t d}, m.Due cfg t d ↔ ∃ l ∈ g.ledger, l.entry.state = t ∧ l.entry.depth = d + 1 := h.due_iff hall
  have hfp : ∀ l ∈ g.ledger, l.entry.fp = m.fingerprint l.entry.state := fun l hl => h.reached.grown.fp_eq hl
  obtain ⟨hvisits, hbound, hattained⟩ := h.visits_eq hdone hpending
  have hlist : (after m cfg moves).visitList = (g.ledger.map fun l => (l.entry.state, l.entry.fp)).reverse := by
    rw [visitList, hvisits]
  have hend := h.reached.termination_eq hdone hn
  refine ⟨?registered, ?visited, ?once, ?ordered, ?generated, ?depth, ?rootless, ?deepest, ?bounded, ?exhausted⟩
  case registered =>
    intro fp
    rw [h.reached.lookup_ne_none]
    constructor
    · rintro ⟨l, hl, rfl⟩
      obtain ⟨d, -, hd⟩ := h.atDistance hl
      exact ⟨l.entry.state, d, hd, (hfp l hl).symm⟩
    · rintro ⟨t, d, hd, rfl⟩
      obtain ⟨l, hl, rfl, -⟩ := hdue.1 hd
      exact ⟨l, hl, hfp l hl⟩
  case visited =>
    intro t fp
    rw [hlist, List.mem_reverse, List.mem_map]
    constructor
    · rintro ⟨l, hl, hentry⟩
      obtain ⟨rfl, rfl⟩ := Prod.mk.inj hentry
      obtain ⟨d, -, hd⟩ := h.atDistance hl
      exact ⟨(hfp l hl).symm, d, hd⟩
    · rintro ⟨rfl, d, hd⟩
      obtain ⟨l, hl, rfl, -⟩ := hdue.1 hd
      exact ⟨l, hl, by rw [hfp l hl]⟩
  case once =>
    rw [hlist, List.map_reverse, List.nodup_reverse, List.map_map]
    exact h.nodup
  case ordered =>
    rw [hlist, List.pairwise_reverse, List.pairwise_map]
    exact h.ordered
  case generated =>
    rw [hlist, List.length_reverse, List.length_map]
    exact h.reached.size_eq
  case depth =>
    intro t d ht depth
    obtain ⟨l, hl, rfl, hdepth⟩ := hdue.1 ht
    have hat := hdisc l hl
    rw [hfp l hl, hdepth] at hat
    exact ⟨fun hd => hd.unique hseed hat, fun hd => by rwa [hd]⟩
  case rootless =>
    intro hinit
    rw [h.reached.ledger_nil hinit] at hattained
    rcases hattained with hzero | ⟨l, hl, -⟩
    · exact hzero
    · cases hl
  case deepest =>
    intro hinit
    constructor
    · -- an initial state has depth 1, so the greatest depth is one that was attained
      obtain ⟨t, ht⟩ := List.exists_mem_of_ne_nil _ hinit
      obtain ⟨k, hk, -, hone⟩ := h.roots t ht
      have hpos := hbound k hk
      rcases hattained with hzero | ⟨l, hl, hdeepest⟩
      · omega
      · obtain ⟨d, hdepth, hd⟩ := h.atDistance hl
        exact ⟨l.entry.state, d, hd, by omega⟩
    · rintro n ⟨t, d, hd, rfl⟩
      obtain ⟨l, hl, -, hdepth⟩ := hdue.1 hd
      rw [← hdepth]
      exact hbound l hl
  case bounded =>
    rw [hend, ← h.depthLimited_iff hall]
    cases (after m cfg moves).depthLimited <;> decide
  case exhausted =>
    rw [hend, ← h.depthLimited_iff hall]
    cases (after m cfg moves).depthLimited <;> decide

/-- **Depth-bounded breadth-first search is exact**: it registers the states at a distance below the bound, visits the
nearer ones first, and says whether there may be more. -/
theorem levels_exact (m : Model σ α) (cfg : Config σ) (h1 : cfg.workers ≤ 1) (hbfs : cfg.order = .breadthFirst)
    (hinj : Set.InjOn m.fingerprint {t | m.Reachable t}) (hseed : (seed m cfg).1 = .ok ()) :
    (∃ s n, check m cfg = .ok s ∧ s.done = true ∧
      ∀ moves : List Move, (∀ mv ∈ moves, ∃ pick, mv = .work 0 pick) → n ≤ moves.length → after m cfg moves = s) ∧
    ∀ moves : List Move, (after m cfg moves).done = true → (after m cfg moves).stopReason = none →
      ExactLevels m cfg moves := by
  refine ⟨check_solo h1 hseed, fun moves hdone hn => ?_⟩
  obtain ⟨g, hr, hdisc⟩ := after_discoveredAt hseed moves
  have h : Orderly m cfg (after m cfg moves) g := ⟨hr, h1, hbfs, hinj, fun t => hr.rooted hseed⟩
  exact h.exactLevels hseed hdisc hdone hn

/-- Four levels, with ways back and across. -/
def ladder : Graph where
  init := [0]
  fans := #[.edges [.state 1, .state 2], .edges [.state 0, .state 3], .edges [.state 3, .state 1], .edges [.state 4],
    .edges []]
  properties := [⟨"below five", .always, fun t => .ok (t < 5)⟩]

def shallow : Config Nat := { order := .breadthFirst, maxDepth := 3 }

theorem levels_exact_ladder :
    (after ladder.model shallow (List.replicate 60 (.work 0 0))).generated = 4 ∧
    (after ladder.model shallow (List.replicate 60 (.work 0 0))).termination = .boundReached ∧
    (∃ t, ladder.model.withinBoundary t = .ok true ∧ ladder.model.AtDistance t 2) ∧
    IsGreatest {n | ∃ t d, ladder.model.Due shallow t d ∧ n = d + 1} 3 := by
  have hinj : Set.InjOn ladder.model.fingerprint {t | ladder.model.Reachable t} :=
    ladder.injOn_fingerprint (L := [0, 1, 2, 3, 4]) (by decide) (by decide +kernel)
  have hdone : (after ladder.model shallow (List.replicate 60 (.work 0 0))).done = true := by decide +kernel
  have hn : (after ladder.model shallow (List.replicate 60 (.work 0 0))).stopReason = none := by decide +kernel
  have hend : (after ladder.model shallow (List.replicate 60 (.work 0 0))).termination = .boundReached := by
    decide +kernel
  have hdeep : (after ladder.model shallow (List.replicate 60 (.work 0 0))).maxDepth = 3 := by decide +kernel
  obtain ⟨-, hexact⟩ := levels_exact ladder.model shallow (Nat.le_refl 1) rfl hinj (by decide +kernel)
  have hlevels := hexact _ hdone hn
  have hgreatest := hlevels.deepest (by decide)
  rw [hdeep] at hgreatest
  exact ⟨by decide +kernel, hend, (hlevels.bounded.1 hend).2, hgreatest⟩

end Search

end StateSpace
