import StateSpace.Proofs.Path
import StateSpace.Proofs.Search.Verdicts

/-!
# Discoveries can be replayed

* `Lineage m L ks l` : the links `ks` lead from an initial state to the parent of `l`, each by an action before which no
  action raises a fault; `Grown.lineage` : every registered entry has one;
* `Lineage.ancestry_eq` : following the links back gives its fingerprints; `Lineage.replay_eq` : replaying these leads to the
  state of `l`, if fingerprints tell reachable states apart;
* `DiscoveredAt m cfg moves fp depth` : the fingerprint was registered at this depth in the course of the moves;
* `discovery_replays` : every discovery, at any time, is the end of a run that reconstruction gives.
-/

namespace StateSpace.Search

open StateSpace.Path

variable {σ α : Type} {m : Model σ α} {cfg : Config σ} {s s' : Search σ α} {g g' : Chronicle σ}

/-- How the entry of the last argument was reached: its ancestors, from an initial state on. -/
inductive Lineage (m : Model σ α) (L : List (Link σ)) : List (Link σ) → Link σ → Prop
  | root {l : Link σ} (hl : l ∈ L) (hi : l.entry.state ∈ m.initStates) (hp : l.parent = l.entry.fp)
      (hd : l.entry.depth = 1) : Lineage m L [] l
  | child {ks : List (Link σ)} {k l : Link σ} {before after : List α} {a : α} (hk : Lineage m L ks k) (hl : l ∈ L)
      (hp : l.parent = k.entry.fp) (hd : l.entry.depth = k.entry.depth + 1)
      (hne : ∀ x ∈ ks ++ [k], x.entry.fp ≠ l.entry.fp) (hb : m.withinBoundary k.entry.state = .ok true)
      (ha : m.actions k.entry.state = .ok (before ++ a :: after))
      (hbefore : ∀ b ∈ before, ∃ next, m.next k.entry.state b = .ok next)
      (ht : m.next k.entry.state a = .ok (some l.entry.state)) : Lineage m L (ks ++ [k]) l

/-! ## Lineages in a ledger -/

theorem Lineage.mono {L L' : List (Link σ)} (hL : L <:+ L') {ks : List (Link σ)} {l : Link σ} (h : Lineage m L ks l) :
    Lineage m L' ks l := by
  induction h with
  | root hl hi hp hd => exact .root (hL.subset hl) hi hp hd
  | child _ hl hp hd hne hb ha hbefore ht ih => exact .child ih (hL.subset hl) hp hd hne hb ha hbefore ht

theorem Lineage.subset {L ks : List (Link σ)} {l : Link σ} (h : Lineage m L ks l) : ∀ x ∈ ks ++ [l], x ∈ L := by
  induction h with
  | root hl =>
    intro x hx
    rwa [List.mem_singleton.1 hx]
  | child _ hl _ _ _ _ _ _ _ ih =>
    intro x hx
    rcases List.mem_append.1 hx with hx | hx
    · exact ih x hx
    · rwa [List.mem_singleton.1 hx]

/-- Every entry of a ledger has a lineage in it. -/
theorem Grown.lineage {L : List (Link σ)} (h : Grown m L) {l : Link σ} (hl : l ∈ L) : ∃ ks, Lineage m L ks l := by
  induction h generalizing l with
  | nil => cases hl
  | root _ hi _ ih =>
    rcases List.mem_cons.1 hl with rfl | hl
    · exact ⟨[], .root List.mem_cons_self hi rfl rfl⟩
    · obtain ⟨ks, hks⟩ := ih hl
      exact ⟨ks, hks.mono (List.suffix_cons _ _)⟩
  | @child L k before after a t _ hk hb ha hbefore ht hn ih =>
    rcases List.mem_cons.1 hl with rfl | hl
    · obtain ⟨ks, hks⟩ := ih hk
      refine ⟨ks ++ [k], .child (hks.mono (List.suffix_cons _ _)) List.mem_cons_self rfl rfl (fun x hx => ?_) hb ha
        hbefore ht⟩
      exact hn x (hks.subset x hx)
    · obtain ⟨ks, hks⟩ := ih hl
      exact ⟨ks, hks.mono (List.suffix_cons _ _)⟩

theorem Lineage.depth_eq {L ks : List (Link σ)} {l : Link σ} (h : Lineage m L ks l) : l.entry.depth = ks.length + 1 := by
  induction h with
  | root _ _ _ hd => exact hd
  | child _ _ _ hd _ _ _ _ _ ih => rw [hd, ih, List.length_append, List.length_singleton]

theorem Lineage.nodup {L ks : List (Link σ)} {l : Link σ} (h : Lineage m L ks l) :
    ((ks ++ [l]).map fun x => x.entry.fp).Nodup := by
  induction h with
  | root => exact List.nodup_singleton _
  | child _ _ _ _ hne _ _ _ _ ih =>
    rw [List.map_append, List.map_singleton, List.nodup_append]
    refine ⟨ih, List.nodup_singleton _, fun x hx y hy => ?_⟩
    obtain ⟨z, hz, rfl⟩ := List.mem_map.1 hx
    rw [List.mem_singleton.1 hy]
    exact hne z hz

theorem Lineage.length_lt {L ks : List (Link σ)} {l : Link σ} (h : Lineage m L ks l) : ks.length < L.length := by
  have hsub : ((ks ++ [l]).map fun x => x.entry.fp) ⊆ L.map fun x => x.entry.fp := List.map_subset _ h.subset
  have hle := (h.nodup.subperm hsub).length_le
  simp only [List.length_map, List.length_append, List.length_singleton] at hle
  omega

/-! ## Back and forth -/

/-- Following the links back from an entry gives the fingerprints of its lineage. -/
theorem Lineage.ancestryFrom_eq {L ks : List (Link σ)} {l : Link σ} {links : Predecessors}
    (hlinks : ∀ x ∈ L, links.lookup x.entry.fp = some x.parent) (h : Lineage m L ks l) {fuel : Nat}
    (hfuel : ks.length < fuel) (seen : List Fingerprint) (hseen : ∀ x ∈ ks ++ [l], x.entry.fp ∉ seen) :
    ancestryFrom links fuel seen l.entry.fp = .ok (((ks ++ [l]).map fun x => x.entry.fp) ++ seen) := by
  obtain ⟨fuel, rfl⟩ := Nat.exists_eq_add_one_of_ne_zero (Nat.ne_of_gt (Nat.zero_lt_of_lt hfuel))
  induction h generalizing fuel seen with
  | @root l hl hi hp =>
    have hnew := hseen l (List.mem_singleton_self _)
    rw [ancestryFrom, if_neg hnew, hlinks l hl, hp]
    dsimp only
    rw [if_pos rfl]
    rfl
  | @child ks k l before after a hk hl hp hd hne hb ha hbefore ht ih =>
    have hnew := hseen l (List.mem_append_right _ (List.mem_singleton_self _))
    have hkl : k.entry.fp ≠ l.entry.fp := hne k (List.mem_append_right _ (List.mem_singleton_self _))
    rw [List.length_append, List.length_singleton] at hfuel
    rw [ancestryFrom, if_neg hnew, hlinks l hl, hp]
    dsimp only
    rw [if_neg hkl]
    obtain ⟨fuel, rfl⟩ := Nat.exists_eq_add_one_of_ne_zero (show fuel ≠ 0 by omega)
    rw [ih (l.entry.fp :: seen) ?_ fuel (by omega)]
    · simp
    · intro x hx hmem
      rcases List.mem_cons.1 hmem with heq | hmem
      · exact hne x hx heq
      · exact hseen x (List.mem_append_left _ hx) hmem

/-- Replaying the fingerprints of a lineage leads to its last state, if fingerprints tell reachable states apart. -/
theorem Lineage.replay_eq {L ks : List (Link σ)} {l : Link σ} (hinj : Set.InjOn m.fingerprint {t | m.Reachable t})
    (hL : Grown m L) (h : Lineage m L ks l) : ∃ p : Path σ α, replay m ((ks ++ [l]).map fun x => x.entry.fp) = .ok (some p) ∧
      p.IsRun m ∧ p.last = l.entry.state ∧ p.size = ks.length + 1 := by
  induction h with
  | @root l hl hi =>
    refine ⟨single l.entry.state, ?_, isRun_single hi, rfl, rfl⟩
    refine replay_single hi (hL.fp_eq hl).symm fun t ht hfp => ?_
    exact hinj (Model.Reachable.init ht) (hL.reachable hl) (hfp.trans (hL.fp_eq hl))
  | @child ks k l before after a hk hl hp hd hne hb ha hbefore ht ih =>
    obtain ⟨p, hreplay, hrun, hlast, hsize⟩ := ih
    have hkmem := hk.subset k (List.mem_append_right _ (List.mem_singleton_self _))
    obtain ⟨b, u, hsel, hmem, hu, hfp⟩ := selectStep_eq_some after hbefore ht (hL.fp_eq hl).symm
    -- the action that is selected need not be the one that was taken, but it leads to the same state
    have hstep : m.Step k.entry.state b u := ⟨⟨_, ha, hmem⟩, hu⟩
    have hul : u = l.entry.state := by
      exact hinj (Model.Reachable.step (hL.reachable hkmem) hb hstep) (hL.reachable hl) (hfp.trans (hL.fp_eq hl))
    rw [← hlast] at ha hsel hstep hb
    refine ⟨p.push b u, ?_, hrun.push hb hstep, ?_, ?_⟩
    · rw [List.map_append, List.map_singleton]
      exact replay_push hreplay ha hsel
    · rw [last_push, hul]
    · rw [size_push, hsize, List.length_append, List.length_singleton]

/-- Reconstruction leads to every registered state. -/
theorem Reached.reconstruct_eq (h : Reached m cfg s g) (hinj : Set.InjOn m.fingerprint {t | m.Reachable t}) {l : Link σ}
    (hl : l ∈ g.ledger) : ∃ p : Path σ α, reconstruct m s.registry l.entry.fp = .ok p ∧ p.IsRun m ∧
      p.last = l.entry.state ∧ p.size = l.entry.depth := by
  obtain ⟨ks, hks⟩ := h.grown.lineage hl
  obtain ⟨p, hreplay, hrun, hlast, hsize⟩ := hks.replay_eq hinj h.grown
  refine ⟨p, ?_, hrun, hlast, by rw [hsize, hks.depth_eq]⟩
  have hfuel : ks.length < s.registry.size + 1 := by
    have hlt := hks.length_lt
    have hsize := h.size_eq
    unfold generated at hsize
    omega
  have hanc := hks.ancestryFrom_eq (fun x hx => h.lookup_eq_some.2 ⟨x, hx, rfl, rfl⟩) hfuel [] fun x _ => List.not_mem_nil
  rw [List.append_nil] at hanc
  rw [reconstruct, ancestry, hanc, ok_bind, ofFingerprints, hreplay]

/-! ## The depth of a discovery -/

/-- In the course of the moves the fingerprint was registered at this depth: 1 if it is an initial state's, and otherwise
one more than that of the entry that a worker was expanding when it registered it. -/
def DiscoveredAt (m : Model σ α) (cfg : Config σ) (moves : List Move) (fp : Fingerprint) (depth : Nat) : Prop :=
  (seed m cfg).2.registry.lookup fp ≠ none ∧ depth = 1 ∨
  ∃ before w pick rest e todo, moves = before ++ .work w pick :: rest ∧
    (after m cfg before).phase w = .acting e todo ∧ (after m cfg before).registry.lookup fp = none ∧
    (after m cfg (before ++ [.work w pick])).registry.lookup fp ≠ none ∧ depth = e.depth + 1

theorem DiscoveredAt.append {moves : List Move} {fp : Fingerprint} {depth : Nat} (h : DiscoveredAt m cfg moves fp depth)
    (more : List Move) : DiscoveredAt m cfg (moves ++ more) fp depth := by
  rcases h with h | ⟨before, w, pick, rest, e, todo, rfl, h⟩
  · exact Or.inl h
  · exact Or.inr ⟨before, w, pick, rest ++ more, e, todo, by rw [List.append_assoc, List.cons_append], h⟩

theorem after_concat (moves : List Move) (mv : Move) : after m cfg (moves ++ [mv]) = (after m cfg moves).move m cfg mv := by
  rw [after, play, List.foldl_append]
  rfl

theorem Transition.ledger_cases {w : Nat} (h : Transition m cfg (some w) s g s' g') : g'.ledger = g.ledger ∨
    ∃ e todo l, s.workers[w]? = some (.acting e todo) ∧ s.registry.lookup l.entry.fp = none ∧
      g'.ledger = l :: g.ledger ∧ l.entry.depth = e.depth + 1 := by
  cases h with
  | discover hw hn hl => exact Or.inr ⟨_, _, _, hw, hl, rfl, rfl⟩
  | _ => exact Or.inl rfl

theorem after_discoveredAt (hseed : (seed m cfg).1 = .ok ()) (moves : List Move) :
    ∃ g, Reached m cfg (after m cfg moves) g ∧
      ∀ l ∈ g.ledger, DiscoveredAt m cfg moves l.entry.fp l.entry.depth := by
  induction moves using List.reverseRecOn with
  | nil =>
    obtain ⟨g, hs⟩ := seed_seeded hseed
    refine ⟨g, hs.reached, fun l hl => Or.inl ⟨?_, hs.depth l hl⟩⟩
    rw [hs.reached.lookup_eq_some.2 ⟨l, hl, rfl, rfl⟩]
    simp
  | append_singleton moves mv ih =>
    obtain ⟨g, hr, hdisc⟩ := ih
    cases mv with
    | cancel =>
      have hr' := hr.next (cancel_transition m cfg (after m cfg moves) g)
      refine ⟨g, ?_, fun l hl => (hdisc l hl).append _⟩
      rw [after_concat]
      exact hr'
    | work w pick =>
      obtain ⟨g', ht⟩ := step_transition m cfg (after m cfg moves) g w pick hr.sound hr.workers
      have hr' : Reached m cfg (after m cfg (moves ++ [.work w pick])) g' := by
        rw [after_concat]
        exact hr.next ht
      refine ⟨g', hr', fun l hl => ?_⟩
      rcases ht.ledger_cases with hsame | ⟨e, todo, l', hw, hnone, hcons, hdepth⟩
      · rw [hsame] at hl
        exact (hdisc l hl).append _
      · rw [hcons] at hl
        rcases List.mem_cons.1 hl with rfl | hl
        · refine Or.inr ⟨moves, w, pick, [], e, todo, rfl, phase_eq hw, hnone, ?_, hdepth⟩
          rw [hr'.lookup_eq_some.2 ⟨l, by rw [hcons]; exact List.mem_cons_self, rfl, rfl⟩]
          simp
        · exact (hdisc l hl).append _

/-- **Discoveries can be replayed**, at any moment of any run and whatever else the model's code raises, by a run to a
state that resolves the property. Its length is the depth at which that state was discovered. -/
theorem discovery_replays (m : Model σ α) (cfg : Config σ) (hinj : Set.InjOn m.fingerprint {t | m.Reachable t})
    (hseed : (seed m cfg).1 = .ok ()) (moves : List Move) (i : Nat) (fp : Fingerprint)
    (hd : (after m cfg moves).discoveries.get? i = some fp) :
    ∃ (p : Property σ) (path : Path σ α), m.properties[i]? = some p ∧
      reconstruct m (after m cfg moves).registry fp = .ok path ∧ path.IsRun m ∧
      (p.expectation = .always → p.condition path.last = .ok false) ∧
      (p.expectation = .sometimes → p.condition path.last = .ok true) ∧
      DiscoveredAt m cfg moves fp path.size := by
  obtain ⟨g, hr, hdisc⟩ := after_discoveredAt hseed moves
  obtain ⟨hslot, hne⟩ := Discoveries.get?_eq_some.1 hd
  obtain ⟨l, hl, hfp, p, hp, hres⟩ := hr.judgement.backed i (by rwa [hslot])
  rw [hslot] at hfp
  subst hfp
  obtain ⟨path, hrec, hrun, hlast, hsize⟩ := hr.reconstruct_eq hinj hl
  rw [← hlast] at hres
  refine ⟨p, path, hp, hrec, hrun, fun he => (Property.resolvedBy_always he).1 hres,
    fun he => (Property.resolvedBy_sometimes he).1 hres, ?_⟩
  rw [hsize]
  exact hdisc l hl

/-- A violation three states away, beside actions that raise faults. -/
def snag : Graph where
  init := [0]
  fans := #[.edges [.state 1, .state 2], .edges [.blocked, .state 3, .raise "stuck"], .raise "closed", .edges []]
  properties := [⟨"below three", .always, fun t => .ok (t < 3)⟩]

def snagMoves : List Move := (List.replicate 18 [.work 0 0, .work 1 0]).flatten

theorem discovery_replays_snag :
    (after snag.model pair snagMoves).fault = some ⟨"closed"⟩ ∧
    ∃ fp path, (after snag.model pair snagMoves).discoveries.get? 0 = some fp ∧
      reconstruct snag.model (after snag.model pair snagMoves).registry fp = .ok path ∧ path.IsRun snag.model ∧
      DiscoveredAt snag.model pair snagMoves fp path.size := by
  have hinj : Set.InjOn snag.model.fingerprint {t | snag.model.Reachable t} :=
    snag.injOn_fingerprint (L := [0, 1, 2, 3]) (by decide) (by decide +kernel)
  have hd : (after snag.model pair snagMoves).discoveries.get? 0 = some (snag.model.fingerprint 3) := by decide +kernel
  obtain ⟨p, path, -, hrec, hrun, -, -, hdepth⟩ := discovery_replays _ _ hinj (by decide +kernel) _ _ _ hd
  exact ⟨by decide +kernel, _, path, hd, hrec, hrun, hdepth⟩

end StateSpace.Search
