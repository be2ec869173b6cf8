import StateSpace.Proofs.Search.Levels

/-!
# Breadth-first discoveries are shortest

* `FirstFound m d L` : each discovery is the fingerprint of the first entry of the ledger `L` that resolves the property;
  kept by the steps of a single worker (`Reached.firstFound`);
* `discovery_shortest` : so the run to a discovery is as short as any run to a state that resolves the property.
-/

namespace StateSpace.Search

open StateSpace.Path

variable {σ α : Type} {m : Model σ α} {cfg : Config σ} {s s' : Search σ α} {g g' : Chronicle σ}

/-! ## The first to resolve a property -/

/-- Each discovery is that of an entry which resolves the property, and before which the property was open. -/
def FirstFound (m : Model σ α) (d : Discoveries) (L : List (Link σ)) : Prop :=
  ∀ i p, m.properties[i]? = some p → d.slot i ≠ Hash.noFingerprint → ∃ newer l older, L = newer ++ l :: older ∧
    l.entry.fp = d.slot i ∧ p.ResolvedBy l.entry.state ∧ ∀ k ∈ older, p.OpenAt k.entry.state

theorem FirstFound.cons {d : Discoveries} {L : List (Link σ)} (h : FirstFound m d L) (l : Link σ) :
    FirstFound m d (l :: L) := by
  intro i p hp hi
  obtain ⟨newer, k, older, rfl, hk⟩ := h i p hp hi
  exact ⟨l :: newer, k, older, rfl, hk⟩

/-- The latest entry is judged, and what was open before it was open at all earlier entries. -/
theorem FirstFound.evaluate {d : Discoveries} {L : List (Link σ)} {l : Link σ} (h : FirstFound m d (l :: L))
    (hlen : d.slots.length = m.properties.length) (hfp : l.entry.fp ≠ Hash.noFingerprint)
    (hopen : ∀ i p, m.properties[i]? = some p → d.slot i = Hash.noFingerprint → ∀ k ∈ L, p.OpenAt k.entry.state) :
    FirstFound m (d.evaluate m.properties l.entry.state l.entry.fp).discoveries (l :: L) := by
  obtain ⟨hgrows, hnew, -⟩ := Discoveries.evaluate_spec l.entry.state hfp hlen
  intro i p hp hi
  by_cases hslot : d.slot i = Hash.noFingerprint
  · obtain ⟨heq, q, hq, hres⟩ := hnew i (by rwa [hslot])
    rw [hp] at hq
    cases hq
    exact ⟨[], l, L, rfl, heq.symm, hres, hopen i p hp hslot⟩
  · rw [hgrows.2 i hslot]
    exact h i p hp hslot

/-- A property without a discovery is open at every entry that was judged. -/
theorem Judgement.openAt (h : Judgement m s g) (hdropped : g.dropped = []) {k : Link σ} (hk : k ∈ g.ledger)
    (hjudged : ∀ q ∈ s.workers, k.entry ∉ q.unjudged) {i : Nat} {p : Property σ} (hp : m.properties[i]? = some p)
    (hslot : s.discoveries.slot i = Hash.noFingerprint) : p.OpenAt k.entry.state := by
  rcases h.judged k hk with hj | hdrop | ⟨q, hq, hun⟩
  · exact (hj i p hp).resolve_left fun hne => hne hslot
  · rw [hdropped] at hdrop
    cases hdrop
  · exact absurd hun (hjudged q hq)

theorem InLine.latest (h : InLine s g) {e child : Entry σ} {p : Phase σ α} (hp : s.phase 0 = p) (he : p.held = [e])
    (hfresh : p.fresh = [child]) : ∃ l L, g.ledger = l :: L ∧ l.entry = child := by
  have horder := h.order
  rw [h.held hp he, hfresh, List.reverse_cons, List.reverse_append] at horder
  obtain ⟨l, L, hL, hl, -⟩ := List.map_eq_cons_iff.1 horder
  exact ⟨l, L, hL, hl⟩

/-- Whoever judges an entry finds that properties without a discovery were open at all earlier ones. -/
theorem Reached.firstFound_judging (hr : Reached m cfg s g) (h1 : cfg.workers ≤ 1) (hbfs : cfg.order = .breadthFirst)
    {w : Nat} {e child : Entry σ} {todo : List α} (hw : s.workers[w]? = some (.judging e child todo))
    (h : FirstFound m s.discoveries g.ledger) :
    FirstFound m (s.discoveries.evaluate m.properties child.state child.fp).discoveries g.ledger := by
  obtain rfl := hr.solo_worker h1 hw
  have hline := hr.inLine h1 hbfs
  have hphase := phase_eq hw
  obtain ⟨-, hdropped⟩ := hline.intact (by rw [hphase]; simp)
  obtain ⟨l, L, hL, rfl⟩ := hline.latest hphase rfl rfl
  have hnodup := hr.nodup
  have hl : l ∈ g.ledger := by
    rw [hL]
    exact List.mem_cons_self
  rw [hL] at h ⊢
  rw [hL, List.map_cons, List.nodup_cons] at hnodup
  refine h.evaluate hr.judgement.length (hr.fp_ne hl) fun i p hp hslot k hk => ?_
  refine hr.judgement.openAt hdropped (by rw [hL]; exact List.mem_cons_of_mem _ hk) (fun q hq hun => ?_) hp hslot
  -- the only entry that waits for its judgement is the latest
  rw [hr.solo h1, hphase] at hq
  rw [List.mem_singleton.1 hq] at hun
  apply hnodup.1
  rw [← List.mem_singleton.1 hun]
  exact List.mem_map_of_mem hk

theorem Transition.firstFound {who : Option Nat} (hr : Reached m cfg s g) (h1 : cfg.workers ≤ 1)
    (hbfs : cfg.order = .breadthFirst) (ht : Transition m cfg who s g s' g') (h : FirstFound m s.discoveries g.ledger) :
    FirstFound m s'.discoveries g'.ledger := by
  cases ht with
  | discover => exact h.cons _
  | judge hw hev =>
    rw [hev]
    exact hr.firstFound_judging h1 hbfs hw h
  | crash hw _ hf =>
    cases hf with
    | condition => exact hr.firstFound_judging h1 hbfs hw h
    | _ => exact h
  | @plant _ _ r r' state registry ev reason stop hw hi hl hs hb hev =>
    have hstart : s.phase 0 = .starting := by
      apply hw
      rw [hr.solo h1]
      exact List.mem_singleton_self _
    obtain ⟨-, hdropped⟩ := (hr.inLine h1 hbfs).intact (by rw [hstart]; simp)
    rw [hev]
    refine (h.cons ⟨⟨state, m.fingerprint state, 1⟩, m.fingerprint state⟩).evaluate hr.judgement.length
      (fingerprint_ne m state) fun i p hp hslot k hk => ?_
    refine hr.judgement.openAt hdropped hk (fun q hq hun => ?_) hp hslot
    rw [hw q hq] at hun
    cases hun
  | _ => exact h

/-- **A single breadth-first worker discovers the first entry that resolves a property.** -/
theorem Reached.firstFound (h : Reached m cfg s g) (h1 : cfg.workers ≤ 1) (hbfs : cfg.order = .breadthFirst) :
    FirstFound m s.discoveries g.ledger := by
  induction h with
  | blank =>
    intro i p hp hi
    exact absurd (Discoveries.slot_none _ i) hi
  | next hr ht ih => exact ht.firstFound hr h1 hbfs ih

/-! ## Shortest runs -/

theorem InLine.mem_older (h : InLine s g) {newer older : List (Link σ)} {l k : Link σ}
    (hL : g.ledger = newer ++ l :: older) (hk : k ∈ g.ledger) (hlt : k.entry.depth < l.entry.depth) : k ∈ older := by
  have hlevels := h.levels
  rw [hL, List.map_append, List.map_cons, List.pairwise_append] at hlevels
  rw [hL] at hk
  rcases List.mem_append.1 hk with hk | hk
  · have hle := hlevels.2.2 k.entry (List.mem_map_of_mem hk) l.entry List.mem_cons_self
    omega
  · rcases List.mem_cons.1 hk with rfl | hk
    · exact absurd hlt (Nat.lt_irrefl _)
    · exact hk

/-- **Breadth-first discoveries are shortest**: with a single worker, at any moment and with any bounds, no run within
the boundary resolves the property in fewer steps. -/
theorem discovery_shortest (m : Model σ α) (cfg : Config σ) (h1 : cfg.workers ≤ 1) (hbfs : cfg.order = .breadthFirst)
    (hinj : Set.InjOn m.fingerprint {t | m.Reachable t}) (hseed : (seed m cfg).1 = .ok ()) (moves : List Move) (i : Nat)
    (fp : Fingerprint) (hd : (after m cfg moves).discoveries.get? i = some fp) :
    ∃ (p : Property σ) (path : Path σ α), m.properties[i]? = some p ∧
      reconstruct m (after m cfg moves).registry fp = .ok path ∧ path.IsRun m ∧ p.ResolvedBy path.last ∧
      ∀ run : Path σ α, run.IsRun m → p.ResolvedBy run.last → path.steps.length ≤ run.steps.length := by
  obtain ⟨g, hr, -⟩ := after_reached hseed moves
  obtain ⟨hslot, hne⟩ := Discoveries.get?_eq_some.1 hd
  obtain ⟨-, -, -, p, hp, -⟩ := hr.judgement.backed i (by rwa [hslot])
  obtain ⟨newer, l, older, hL, hfp, hres, hopen⟩ := hr.firstFound h1 hbfs i p hp (by rwa [hslot])
  have hl : l ∈ g.ledger := by
    rw [hL]
    exact List.mem_append_right _ List.mem_cons_self
  obtain ⟨path, hrec, hrun, hlast, hsize⟩ := hr.reconstruct_eq hinj hl
  rw [hfp, hslot] at hrec
  refine ⟨p, path, hp, hrec, hrun, by rwa [hlast], fun run hrun' hres' => ?_⟩
  by_contra hlt
  have hshort : run.size < l.entry.depth := by
    unfold size at hsize ⊢
    omega
  have hO : Orderly m cfg (after m cfg moves) g := ⟨hr, h1, hbfs, hinj, fun t => hr.rooted hseed⟩
  obtain ⟨k, hk, hstate, hdepth⟩ := hO.registered_above hl hrun' hshort
  have hearlier := hopen k (hO.inLine.mem_older hL hk hdepth)
  rw [hstate] at hearlier
  exact hearlier.not_resolvedBy hres'

/-- A state that two ways lead to, of which the one that is tried first is the longer. -/
def detour : Graph where
  init := [0]
  fans := #[.edges [.state 1, .state 2], .edges [.state 3], .edges [.state 4], .edges [.state 4], .edges []]
  properties := [⟨"below four", .always, fun t => .ok (t < 4)⟩]

theorem discovery_shortest_detour :
    ∃ fp path, (after detour.model broad (List.replicate 40 (.work 0 0))).discoveries.get? 0 = some fp ∧
      reconstruct detour.model (after detour.model broad (List.replicate 40 (.work 0 0))).registry fp = .ok path ∧
      path.IsRun detour.model ∧
      ∀ run : Path Nat Int, run.IsRun detour.model → run.last = 4 → path.steps.length ≤ run.steps.length := by
  have hinj : Set.InjOn detour.model.fingerprint {t | detour.model.Reachable t} :=
    detour.injOn_fingerprint (L := [0, 1, 2, 3, 4]) (by decide) (by decide +kernel)
  have hd : (after detour.model broad (List.replicate 40 (.work 0 0))).discoveries.get? 0 =
      some (detour.model.fingerprint 4) := by decide +kernel
  obtain ⟨p, path, hp, hrec, hrun, -, hmin⟩ :=
    discovery_shortest _ _ (Nat.le_refl 1) rfl hinj (by decide +kernel) _ _ _ hd
  refine ⟨_, path, hd, hrec, hrun, fun run hrun' hlast => hmin run hrun' ?_⟩
  cases hp
  rw [hlast]
  exact ⟨false, rfl, rfl⟩

end StateSpace.Search
