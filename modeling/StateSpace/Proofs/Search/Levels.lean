import StateSpace.Proofs.Search.Cuts

/-!
# A single breadth-first worker goes level by level

* `unfinished s g` : the entries that were registered and not completed, in the order in which they were registered;
* `InLine s g` : the ledger is the completed entries and after them the unfinished ones, its depths never fall, and no
  unfinished entry is more than one level above the deepest entry; kept by every transition (`Reached.inLine`);
* `Reached.near` : what follows a completed entry was registered at most one level below it;
* `Orderly.registered_within` : so every short run ends in a registered state, at a depth that is at most the run's size,
  and depths are distances (`Orderly.depth_le`).
-/

namespace StateSpace.Search

open StateSpace.Path

variable {σ α : Type} {m : Model σ α} {cfg : Config σ} {s s' : Search σ α} {g g' : Chronicle σ}

/-! ## One queue -/

theorem Reached.order_eq (h : Reached m cfg s g) : s.frontier.order = cfg.order := by
  induction h with
  | blank => rfl
  | next hr ht ih =>
    cases ht with
    | take hw _ hpop =>
      rw [(Frontier.pop_entry (hr.worker_lt hw) hpop).2.order]
      exact ih
    | _ => exact ih

theorem Reached.solo_worker (h : Reached m cfg s g) (h1 : cfg.workers ≤ 1) {w : Nat} {p : Phase σ α}
    (hw : s.workers[w]? = some p) : w = 0 := by
  have hlt := (List.getElem?_eq_some_iff.1 hw).1
  rw [h.solo h1, List.length_singleton] at hlt
  omega

theorem Reached.solo_frontier (h : Reached m cfg s g) (h1 : cfg.workers ≤ 1) : s.frontier.workers = 1 := by
  rw [h.workers, h.solo h1]
  rfl

/-- What a single worker has registered and not completed: what a fault took from it, what it holds, what is queued and
what it has not pushed yet. -/
def unfinished (s : Search σ α) (g : Chronicle σ) : List (Entry σ) :=
  g.lost ++ ((s.phase 0).held ++ (s.frontier.entries ++ ((s.phase 0).fresh ++ g.dropped)))

/-- The registered entries stand in line, level by level. -/
structure InLine (s : Search σ α) (g : Chronicle σ) : Prop where
  intact : s.phase 0 ≠ .finished → g.lost = [] ∧ g.dropped = []
  seeding : s.phase 0 = .starting → ∀ l ∈ g.ledger, l.entry.depth = 1
  order : g.ledger.map Link.entry = (unfinished s g).reverse ++ g.completed
  levels : (g.ledger.map Link.entry).Pairwise fun x y => y.depth ≤ x.depth
  span : ∀ x ∈ unfinished s g, ∀ l ∈ g.ledger, l.entry.depth ≤ x.depth + 1

theorem InLine.frame (h : InLine s g) (hintact : s'.phase 0 ≠ .finished → g'.lost = [] ∧ g'.dropped = [])
    (hseeding : s'.phase 0 = .starting → s.phase 0 = .starting) (hu : unfinished s' g' = unfinished s g)
    (hl : g'.ledger = g.ledger) (hc : g'.completed = g.completed) : InLine s' g' := by
  refine ⟨hintact, ?_, ?_, ?_, ?_⟩
  · rw [hl]
    exact fun hs => h.seeding (hseeding hs)
  · rw [hl, hu, hc]
    exact h.order
  · rw [hl]
    exact h.levels
  · rw [hu, hl]
    exact h.span

theorem InLine.pass (h : InLine s g) {p q : Phase σ α} (hw : s.workers[0]? = some p)
    (hws : s'.workers = s.workers.set 0 q) (hq : q ≠ .starting)
    (hintact : q ≠ .finished → g'.lost = [] ∧ g'.dropped = [])
    (hu : g'.lost ++ (q.held ++ (s'.frontier.entries ++ (q.fresh ++ g'.dropped))) =
      g.lost ++ (p.held ++ (s.frontier.entries ++ (p.fresh ++ g.dropped))))
    (hl : g'.ledger = g.ledger) (hc : g'.completed = g.completed) : InLine s' g' := by
  have hphase := phase_eq hw
  have hphase' := phase_set hw hws
  refine h.frame ?_ (fun hs => absurd (hphase'.symm.trans hs) hq) ?_ hl hc
  · rwa [hphase']
  · rw [unfinished, unfinished, hphase, hphase', hu]

theorem InLine.set (h : InLine s g) {p q : Phase σ α} (hw : s.workers[0]? = some p) (hws : s'.workers = s.workers.set 0 q)
    (hp : p ≠ .finished) (hq : q ≠ .starting) (hheld : q.held = p.held) (hfresh : q.fresh = p.fresh)
    (hf : s'.frontier.entries = s.frontier.entries) : InLine s' g := by
  refine h.pass hw hws hq (fun _ => h.intact ?_) ?_ rfl rfl
  · rwa [phase_eq hw]
  · rw [hheld, hfresh, hf]

theorem InLine.pairwise (h : InLine s g) : (unfinished s g).Pairwise fun x y => x.depth ≤ y.depth := by
  have hlevels := h.levels
  rw [h.order] at hlevels
  exact List.pairwise_reverse.1 (List.pairwise_append.1 hlevels).1

/-- The entry that the worker holds is the first of the unfinished ones. -/
theorem InLine.held (h : InLine s g) {p : Phase σ α} {e : Entry σ} (hp : s.phase 0 = p) (he : p.held = [e]) :
    unfinished s g = e :: (s.frontier.entries ++ p.fresh) := by
  have hne : s.phase 0 ≠ .finished := by
    intro hfin
    rw [← hp, hfin] at he
    cases he
  obtain ⟨hlost, hdropped⟩ := h.intact hne
  rw [unfinished, hp, he, hlost, hdropped, List.append_nil]
  rfl

/-- An entry joins the line at its end. -/
theorem InLine.join (h : InLine s g) {c : Entry σ} {parent : Fingerprint} (hintact : g'.lost = [] ∧ g'.dropped = [])
    (hseeding : s'.phase 0 = .starting → s.phase 0 = .starting ∧ c.depth = 1)
    (hu : unfinished s' g' = unfinished s g ++ [c]) (hl : g'.ledger = ⟨c, parent⟩ :: g.ledger)
    (hc : g'.completed = g.completed) (hdeepest : ∀ l ∈ g.ledger, l.entry.depth ≤ c.depth)
    (hspan : ∀ x ∈ unfinished s g, c.depth ≤ x.depth + 1) : InLine s' g' := by
  refine ⟨fun _ => hintact, fun hs l hmem => ?_, ?_, ?_, fun x hx l hmem => ?_⟩
  · rw [hl] at hmem
    rcases List.mem_cons.1 hmem with rfl | hmem
    · exact (hseeding hs).2
    · exact h.seeding (hseeding hs).1 l hmem
  · rw [hl, hu, hc, List.map_cons, h.order, List.reverse_append]
    rfl
  · rw [hl, List.map_cons, List.pairwise_cons]
    refine ⟨fun y hy => ?_, h.levels⟩
    obtain ⟨l, hmem, rfl⟩ := List.mem_map.1 hy
    exact hdeepest l hmem
  · rw [hl] at hmem
    rw [hu, List.mem_append, List.mem_singleton] at hx
    rcases hx with hx | rfl
    · rcases List.mem_cons.1 hmem with rfl | hmem
      · exact hspan x hx
      · exact h.span x hx l hmem
    · rcases List.mem_cons.1 hmem with rfl | hmem
      · exact Nat.le_succ _
      · exact (hdeepest l hmem).trans (Nat.le_succ _)

theorem InLine.complete (h : InLine s g) {e : Entry σ} (hw : s.workers[0]? = some (.acting e [])) :
    InLine { s with frontier := s.frontier.complete, workers := s.workers.set 0 .idle }
      { g with completed := e :: g.completed } := by
  have hphase := phase_eq hw
  obtain ⟨hlost, hdropped⟩ := h.intact (by rw [hphase]; simp)
  have hbefore := h.held hphase rfl
  have hafter : unfinished { s with frontier := s.frontier.complete, workers := s.workers.set 0 .idle }
      { g with completed := e :: g.completed } = s.frontier.entries := by
    rw [unfinished, phase_set hw rfl, hlost, hdropped]
    exact List.append_nil _
  have hrest : unfinished s g = e :: s.frontier.entries := by rw [hbefore]; exact congrArg _ (List.append_nil _)
  refine ⟨fun _ => ⟨hlost, hdropped⟩, fun hs => ?_, ?_, h.levels, fun x hx => ?_⟩
  · rw [phase_set hw rfl] at hs
    cases hs
  · rw [hafter, h.order, hrest, List.reverse_cons, List.append_assoc]
    rfl
  · rw [hafter] at hx
    exact h.span x (by rw [hrest]; exact List.mem_cons_of_mem _ hx)

/-- What an action of the entry in hand leads to is registered one level below it, at the end of the line. -/
theorem InLine.discover (h : InLine s g) {e : Entry σ} {todo todo' : List α} {t : σ} {fp : Fingerprint}
    {registry : Predecessors} (hw : s.workers[0]? = some (.acting e todo)) :
    InLine { s with registry, workers := s.workers.set 0 (.judging e ⟨t, fp, e.depth + 1⟩ todo') }
      { g with ledger := ⟨⟨t, fp, e.depth + 1⟩, e.fp⟩ :: g.ledger } := by
  have hphase := phase_eq hw
  have hintact := h.intact (by rw [hphase]; simp)
  have hhead := h.held hphase rfl
  have hfirst := h.pairwise
  rw [hhead, List.pairwise_cons] at hfirst
  refine h.join hintact (fun hs => ?_) ?_ rfl rfl (h.span e (by rw [hhead]; exact List.mem_cons_self)) fun x hx => ?_
  · rw [phase_set hw rfl] at hs
    cases hs
  · rw [hhead, unfinished, phase_set hw rfl, hintact.1, hintact.2]
    simp [Phase.held, Phase.fresh]
  · rw [hhead] at hx
    rcases List.mem_cons.1 hx with rfl | hx
    · exact Nat.le_refl _
    · exact Nat.succ_le_succ (hfirst.1 x hx)

theorem InLine.plant (h : InLine s g) (hone : s.frontier.workers = 1) (hstart : s.phase 0 = .starting) {t : σ}
    {fp : Fingerprint} {stop : Bool} (hws : s'.workers = s.workers)
    (hf : s'.frontier = (s.frontier.flagged stop).seed ⟨t, fp, 1⟩) :
    InLine s' { g with ledger := ⟨⟨t, fp, 1⟩, fp⟩ :: g.ledger } := by
  have hintact := h.intact (by rw [hstart]; simp)
  have hphase : s'.phase 0 = .starting := by rw [phase, hws]; exact hstart
  have hentries : s'.frontier.entries = s.frontier.entries ++ [⟨t, fp, 1⟩] := by
    rw [hf]
    exact Frontier.entries_seed_solo hone _
  have hone' := h.seeding hstart
  refine h.join hintact (fun _ => ⟨hstart, rfl⟩) ?_ rfl rfl (fun l hl => (hone' l hl).le) fun x hx => ?_
  · rw [unfinished, unfinished, hphase, hstart, hentries, hintact.1, hintact.2]
    simp [Phase.held, Phase.fresh]
  · exact Nat.le_add_left 1 _

/-- **Every transition keeps the entries in line.** -/
theorem Transition.inLine {who : Option Nat} (hr : Reached m cfg s g) (h1 : cfg.workers ≤ 1)
    (hbfs : cfg.order = .breadthFirst) (ht : Transition m cfg who s g s' g') (h : InLine s g) : InLine s' g' := by
  cases ht with
  | log | again | cancel => exact h.frame h.intact id rfl rfl rfl
  | rest => exact h
  | start hw | visit hw | present hw | outside hw | deep hw | enumerate hw | skip hw | known hw | judge hw | note hw =>
    obtain rfl := hr.solo_worker h1 hw
    exact h.set hw rfl (by simp) (by simp) rfl rfl rfl
  | wait hw hp | leave hw hp =>
    obtain rfl := hr.solo_worker h1 hw
    rcases hp with rfl | rfl
    · exact h.set hw rfl (by simp) (by simp) rfl rfl rfl
    · exact h.set hw rfl (by simp) (by simp) rfl rfl rfl
  | @take w pick _ _ r p e theft f hw hp hpop =>
    obtain rfl := hr.solo_worker h1 hw
    have hqueue := Frontier.pop_oldest (hr.solo_frontier h1) (hr.order_eq.trans hbfs) hpop
    obtain ⟨hheld, hfresh⟩ := held_of_idle hp
    refine h.pass hw rfl (by simp) (fun _ => h.intact ?_) ?_ rfl rfl
    · rw [phase_eq hw]
      rcases hp with rfl | rfl <;> simp
    · rw [hheld, hfresh, hqueue]
      rfl
  | complete hw =>
    obtain rfl := hr.solo_worker h1 hw
    exact h.complete hw
  | discover hw =>
    obtain rfl := hr.solo_worker h1 hw
    exact h.discover hw
  | @give w _ _ e child todo hw =>
    obtain rfl := hr.solo_worker h1 hw
    have hintact := h.intact (by rw [phase_eq hw]; simp)
    have happ : (s.frontier.announce.append 0 child).entries = s.frontier.entries ++ [child] :=
      Frontier.entries_append_solo (f := s.frontier.announce) (hr.solo_frontier h1) child
    refine h.pass hw rfl (by simp) (fun _ => hintact) ?_ rfl rfl
    rw [happ]
    simp [Phase.held, Phase.fresh]
  | @crash w _ _ r p e f d hw hp hf =>
    obtain rfl := hr.solo_worker h1 hw
    have hne : p ≠ .finished := by
      rintro rfl
      cases hp
    obtain ⟨hlost, hdropped⟩ := h.intact (by rwa [phase_eq hw])
    refine h.pass hw rfl (by simp) (fun hfin => absurd rfl hfin) ?_ rfl rfl
    rw [hlost, hdropped, hp]
    rfl
  | @plant _ _ r r' state registry ev reason stop hw =>
    have hstart : s.phase 0 = .starting := hw _ (by rw [hr.solo h1]; exact List.mem_singleton_self _)
    exact h.plant (hr.solo_frontier h1) hstart rfl rfl

theorem Reached.inLine (h : Reached m cfg s g) (h1 : cfg.workers ≤ 1) (hbfs : cfg.order = .breadthFirst) :
    InLine s g := by
  induction h with
  | blank =>
    have hphase : (Search.blank m cfg).phase 0 = .starting := by
      rw [phase, Search.blank, List.getElem?_replicate, if_pos (by omega)]
      rfl
    have hempty : unfinished (Search.blank m cfg) ⟨[], [], [], []⟩ = [] := by
      rw [unfinished, hphase]
      simp [Search.blank, Frontier.entries_new, Phase.held, Phase.fresh]
    refine ⟨fun _ => ⟨rfl, rfl⟩, fun _ l hl => (by cases hl), ?_, List.Pairwise.nil, fun x hx => ?_⟩
    · rw [hempty]
      rfl
    · rw [hempty] at hx
      cases hx
  | next hr ht ih => exact ht.inLine hr h1 hbfs ih

/-! ## Short runs -/

/-- What follows a completed entry that was expanded is registered, at most one level below it. -/
theorem Reached.near (h : Reached m cfg s g) (h1 : cfg.workers ≤ 1) (hbfs : cfg.order = .breadthFirst) {e : Entry σ}
    (he : e ∈ g.completed) (hb : m.withinBoundary e.state = .ok true) (hd : ¬ cfg.Cuts e.depth) {a : α} {t : σ}
    (hstep : m.Step e.state a t) :
    ∃ k ∈ g.ledger, k.entry.fp = m.fingerprint t ∧ k.entry.depth ≤ e.depth + 1 := by
  induction h with
  | blank => cases he
  | @next who s s' g g' hr ht ih =>
    have hsuf := ht.ledger
    have hold : e ∈ g.completed → ∃ k ∈ g'.ledger, k.entry.fp = m.fingerprint t ∧ k.entry.depth ≤ e.depth + 1 := by
      intro he
      obtain ⟨k, hk, hnear⟩ := ih he
      exact ⟨k, hsuf.subset hk, hnear⟩
    cases ht with
    | @complete w _ _ e' hw =>
      rcases List.mem_cons.1 he with rfl | he
      · -- the entry is completed just now, so that nothing is more than one level below it
        obtain rfl := hr.solo_worker h1 hw
        have hline := hr.inLine h1 hbfs
        have hspan := hline.span e (by rw [hline.held (phase_eq hw) rfl]; exact List.mem_cons_self)
        cases hr.expansions.acting hw (List.mem_singleton_self _) with
        | outside hb' =>
          rw [hb] at hb'
          cases hb'
        | cut _ hcut => exact absurd hcut hd
        | @inside before _ _ ha hh =>
          obtain ⟨⟨as, has, hmem⟩, hnext⟩ := hstep
          rw [has, List.append_nil] at ha
          cases ha
          obtain ⟨next, hnext', hknows⟩ := hh a hmem
          rw [hnext] at hnext'
          obtain ⟨k, hk, hfp⟩ := hknows t (Except.ok.inj hnext').symm
          exact ⟨k, hk, hfp, hspan k hk⟩
      · exact hold he
    | _ => exact hold he

/-- Entries of the ledger that differ by more than one level from the last are completed. -/
theorem InLine.completed (h : InLine s g) {k l : Link σ} (hk : k ∈ g.ledger) (hl : l ∈ g.ledger)
    (hlt : k.entry.depth + 1 < l.entry.depth) : k.entry ∈ g.completed := by
  have hmem : k.entry ∈ (unfinished s g).reverse ++ g.completed := by
    rw [← h.order]
    exact List.mem_map_of_mem hk
  rcases List.mem_append.1 hmem with hmem | hmem
  · have hspan := h.span k.entry (List.mem_reverse.1 hmem) l hl
    omega
  · exact hmem

theorem Lineage.depth_of_self {L ks : List (Link σ)} {l : Link σ} (h : Lineage m L ks l) (hp : l.parent = l.entry.fp) :
    l.entry.depth = 1 := by
  cases h with
  | root _ _ _ hd => exact hd
  | @child ks k _ _ _ _ _ _ hpk _ hne =>
    exact absurd (hpk.symm.trans hp) (hne k (List.mem_append_right _ (List.mem_singleton_self _)))

theorem Reached.rooted (hseed : (seed m cfg).1 = .ok ()) {moves : List Move} (h : Reached m cfg (after m cfg moves) g)
    {t : σ} (ht : t ∈ m.initStates) : ∃ k ∈ g.ledger, k.entry.fp = m.fingerprint t ∧ k.entry.depth = 1 := by
  have hself := (lookup_self_iff hseed moves (m.fingerprint t)).2 ⟨t, ht, rfl⟩
  obtain ⟨k, hk, hfp, hparent⟩ := h.lookup_eq_some.1 hself
  obtain ⟨ks, hks⟩ := h.grown.lineage hk
  exact ⟨k, hk, hfp, hks.depth_of_self (hparent.trans hfp.symm)⟩

/-- A search by a single breadth-first worker, once the initial states are registered, of a model whose fingerprints tell
reachable states apart. -/
structure Orderly (m : Model σ α) (cfg : Config σ) (s : Search σ α) (g : Chronicle σ) : Prop where
  reached : Reached m cfg s g
  solo : cfg.workers ≤ 1
  order : cfg.order = .breadthFirst
  inj : Set.InjOn m.fingerprint {t | m.Reachable t}
  roots : ∀ t ∈ m.initStates, ∃ k ∈ g.ledger, k.entry.fp = m.fingerprint t ∧ k.entry.depth = 1

theorem Orderly.inLine (h : Orderly m cfg s g) : InLine s g := h.reached.inLine h.solo h.order

theorem Orderly.state_eq (h : Orderly m cfg s g) {t : σ} (ht : m.Reachable t) {k : Link σ} (hk : k ∈ g.ledger)
    (hfp : k.entry.fp = m.fingerprint t) : k.entry.state = t := by
  apply h.inj (h.reached.grown.reachable hk) ht
  rw [← h.reached.grown.fp_eq hk, hfp]

/-- **Short runs end in registered states.** If the entries up to some depth were expanded, then a run of that many
states, or fewer, ends in a state that was registered at a depth of at most its size. -/
theorem Orderly.registered_within (h : Orderly m cfg s g) {bound : Nat}
    (hbound : ∀ k ∈ g.ledger, k.entry.depth < bound → k.entry ∈ g.completed ∧ ¬ cfg.Cuts k.entry.depth)
    {p : Path σ α} (hp : p.IsRun m) (hsize : p.size ≤ bound) :
    ∃ k ∈ g.ledger, k.entry.state = p.last ∧ k.entry.depth ≤ p.size := by
  refine hp.lead (P := fun t n => n + 1 ≤ bound → ∃ k ∈ g.ledger, k.entry.state = t ∧ k.entry.depth ≤ n + 1) ?_ ?_ hsize
  · intro t ht _
    obtain ⟨k, hk, hfp, hdepth⟩ := h.roots t ht
    exact ⟨k, hk, h.state_eq (.init ht) hk hfp, by omega⟩
  · intro u a t n hb hstep ih hn
    obtain ⟨k, hk, rfl, hdepth⟩ := ih (by omega)
    obtain ⟨hcompleted, hcut⟩ := hbound k hk (by omega)
    obtain ⟨l, hl, hfp, hnear⟩ := h.reached.near h.solo h.order hcompleted hb hcut hstep
    exact ⟨l, hl, h.state_eq (.step (h.reached.grown.reachable hk) hb hstep) hl hfp, by omega⟩

theorem Orderly.registered_above (h : Orderly m cfg s g) {l : Link σ} (hl : l ∈ g.ledger) {p : Path σ α} (hp : p.IsRun m)
    (hsize : p.size < l.entry.depth) : ∃ k ∈ g.ledger, k.entry.state = p.last ∧ k.entry.depth < l.entry.depth := by
  have hlive := h.reached.cutting.ledger l hl
  have hbound : ∀ k ∈ g.ledger, k.entry.depth < l.entry.depth - 1 → k.entry ∈ g.completed ∧ ¬ cfg.Cuts k.entry.depth := by
    intro k hk hlt
    refine ⟨h.inLine.completed hk hl (by omega), fun hcut => ?_⟩
    exact hlive (hcut.mono (by omega))
  obtain ⟨k, hk, hlast, hdepth⟩ := h.registered_within hbound hp (by omega)
  exact ⟨k, hk, hlast, by omega⟩

/-- **Depths are distances**: no run to a registered state has fewer states than the depth at which it was registered. -/
theorem Orderly.depth_le (h : Orderly m cfg s g) {l : Link σ} (hl : l ∈ g.ledger) {p : Path σ α} (hp : p.IsRun m)
    (hlast : p.last = l.entry.state) : l.entry.depth ≤ p.size := by
  by_contra hlt
  obtain ⟨k, hk, hstate, hdepth⟩ := h.registered_above hl hp (by omega)
  have hfp : k.entry.fp = l.entry.fp := by
    rw [h.reached.grown.fp_eq hk, h.reached.grown.fp_eq hl, hstate, hlast]
  obtain rfl : k = l := List.inj_on_of_nodup_map h.reached.nodup hk hl hfp
  exact Nat.lt_irrefl _ hdepth

theorem InLine.ledger_eq (h : InLine s g) (hr : Reached m cfg s g) (hdone : s.done = true)
    (hpending : s.frontier.pending = 0) : g.ledger.map Link.entry = g.completed := by
  have hlen := (hr.completed hdone hpending).1.length_eq
  have horder := h.order
  rw [horder, List.length_append, List.length_reverse] at hlen
  have hnone : unfinished s g = [] := List.length_eq_zero_iff.1 (by omega)
  rw [horder, hnone]
  rfl

end StateSpace.Search
